import Mathlib.Algebra.Order.BigOperators.Group.Finset
import RosKernel.Filesys.FileObjects

/-! Every file is torn down once, by the call that takes its last descriptor away, in every run whose calls meet their condition. -/

set_option autoImplicit false

namespace RosKernel.Filesys.FileWorld

open Library Process List Option
open Function (update update_apply update_of_ne update_self)

/-- The invariant; `held` are references that a call has in its hands. -/
structure Kept (world : FileWorld) (held : List FileId) : Prop where
  counted : Counted world.calls held
  sound : world.Sound fun _ => 0
  anonymous : ∀ task, some task ∈ world.calls.tasks → ∀ area ∈ task.space.vmas, area.backingFile = none

variable {world : FileWorld} {held : List FileId} {id : FileId} {node : FileNode}

theorem Kept.live (kept : world.Kept (id :: held)) : world.calls.live id = true :=
  kept.counted.live_of_held mem_cons_self

/-! ## `VFSManager::Close` -/

theorem release_last {region : ShmRegion} (used : region.used = true) (last : region.refCount = 1) :
    region.release = (⟨"", 0, region.sizeInPages, 0, false⟩, some (region.physAddr, region.sizeInPages)) := by
  simp [ShmRegion.release, used, last]

theorem release_more {region : ShmRegion} (used : region.used = true) (more : 1 < region.refCount) (lt : region.refCount < 2 ^ 32) :
    region.release = ({ region with refCount := region.refCount - 1 }, none) := by
  have less : (region.refCount + (2 ^ 32 - 1)) % 2 ^ 32 = region.refCount - 1 := by omega
  have pos : region.refCount - 1 ≠ 0 := by omega
  simp only [ShmRegion.release, used, Bool.not_true, Bool.false_eq_true, if_false, less, if_neg pos]

theorem closeDriver_eq (hf : world.nodes (world.nodeOf id) = some node) (own : node.owner ≠ none)
    (notSocket : node.owner ≠ some .socket) (buffer : node.owner = some .pipe → world.buffers node.inodeId = true) :
    ∃ named buffers, world.closeDriver id = { world with
        closes := update world.closes id (world.closes id + 1)
        named, buffers } ∧
      (node.owner = some .pipe ∧ node.refCount = 1 → named = KeyedSlots.remove some world.named node.inodeId ∧
        buffers = update world.buffers node.inodeId false) ∧
      (¬ (node.owner = some .pipe ∧ node.refCount = 1) → named = world.named ∧ buffers = world.buffers) := by
  unfold closeDriver
  rw [hf]
  dsimp only
  split
  case h_1 none_ => exact absurd none_ own
  case h_2 mounted =>
    refine ⟨_, _, rfl, fun both => ?_, fun _ => ⟨rfl, rfl⟩⟩
    cases mounted.symm.trans both.1
  case h_3 isPipe =>
    unfold closePipe
    have used : useBuffer { world with closes := update world.closes id (world.closes id + 1) } node.inodeId =
        { world with closes := update world.closes id (world.closes id + 1) } := check_true (buffer isPipe)
    rw [used]
    split
    case isTrue last => exact ⟨_, _, rfl, fun _ => ⟨rfl, rfl⟩, fun not => absurd ⟨isPipe, last⟩ not⟩
    case isFalse more => exact ⟨_, _, rfl, fun both => absurd both.2 more, fun _ => ⟨rfl, rfl⟩⟩
  case h_4 isSocket => exact absurd isSocket notSocket

section

variable (live : world.calls.live id = true)
include live

theorem deleteFile_live : world.deleteFile id = { world with
    calls := { world.calls with live := update world.calls.live id false }
    deletes := update world.deletes id (world.deletes id + 1) } := by
  unfold deleteFile
  rw [useFile_live live]

theorem releaseNode_last (hf : world.nodes (world.nodeOf id) = some node) (last : node.refCount = 1)
    (scanned : ((world.cache.takeWhile fun slot => !KeyedSlots.holds world.key node.key slot).all fun slot => slot.all fun ptr => (world.nodes ptr).isSome) = true) :
    world.releaseNode id = { world with
      nodes := update world.nodes (world.nodeOf id) none
      cache := KeyedSlots.remove world.key world.cache node.key } := by
  unfold releaseNode
  rw [useFile_live live, hf]
  dsimp only
  rw [if_pos (by omega)]
  unfold dropNode scanCache
  rw [check_true scanned]

theorem releaseNode_more (hf : world.nodes (world.nodeOf id) = some node) (more : 1 < node.refCount) :
    world.releaseNode id = world.addRef (world.nodeOf id) (-1) := by
  unfold releaseNode
  rw [useFile_live live, hf]
  exact if_neg (by omega)

end

theorem Sound.closedNode (sound : world.Sound fun _ => 0) (live : world.calls.live id = true) (plain : (world.calls.files id).type ≠ .shm) :
    ∃ after : FileWorld, ((closeDriver { world with calls := world.calls.addRef id (-1) } id).releaseNode id).deleteFile id = after ∧
      (after.Sound fun _ => 0) ∧
      after.calls = { world.calls.addRef id (-1) with live := update world.calls.live id false } := by
  obtain ⟨node, owner, hf, own⟩ := sound.noded id live plain
  have owned : node.owner ≠ none := own.symm ▸ nofun
  let closing : FileWorld := { world with calls := world.calls.addRef id (-1) }
  obtain ⟨named, buffers, driver, last, rest⟩ := closeDriver_eq (show closing.nodes (closing.nodeOf id) = some node from hf) owned
    (sound.notSocket _ node hf) fun isPipe => (sound.piped _ node hf isPipe).1
  let closed : FileWorld := { closing with closes := update world.closes id (world.closes id + 1), named, buffers }
  have gone := sound.gone live plain
  have count := sound.counts _ node owner hf own
  have mem : id ∈ world.opened (world.nodeOf id) := mem_opened.mpr ⟨sound.lt_of_live live, live, plain, rfl⟩
  have pos := Finset.card_pos.mpr ⟨id, mem⟩
  rw [driver]
  by_cases single : node.refCount = 1
  · rw [releaseNode_last (show closed.calls.live id = true from live) (show closed.nodes (closed.nodeOf id) = some node from hf) single
      (sound.scanned node.key)]
    refine ⟨_, deleteFile_live live, ?_, rfl⟩
    exact gone.dropped hf owned single (fun isPipe => last ⟨isPipe, single⟩) fun notPipe => rest fun both => notPipe both.1
  · obtain ⟨rfl, rfl⟩ := rest fun both => single both.2
    rw [releaseNode_more (show closed.calls.live id = true from live) (show closed.nodes (closed.nodeOf id) = some node from hf) (by omega)]
    refine ⟨_, deleteFile_live live, ?_, rfl⟩
    obtain ⟨other, among, ne⟩ := Finset.exists_mem_ne (show 1 < (world.opened (world.nodeOf id)).card by omega) id
    obtain ⟨_, theirs, _, eq⟩ := mem_opened.mp among
    have left : (world.gone id).calls.live other = true := (update_of_ne ne ..).trans theirs
    have cnt : ((world.gone id).addRef (world.nodeOf id) (-1)).Sound _ := gone.addRef (-1) fun _ _ _ _ => ⟨other, left, eq⟩
    refine cnt.even fun ptr => ?_
    rw [update_self, update_apply, update_apply]
    split <;> rfl

theorem releaseRegion_last {i : Nat} {region : ShmRegion} {frames : Nat × Nat} (released : (world.calls.regions i).release = (region, some frames))
    (there : (world.nodes (world.regionNode i)).isSome = true) : world.releaseRegion id i = { world with
      calls := { world.calls with regions := update world.calls.regions i region }
      closes := update world.closes id (world.closes id + 1)
      nodes := update world.nodes (world.regionNode i) none } := by
  unfold releaseRegion
  rw [released]
  dsimp only
  rw [isSome_some, if_pos rfl, useNode, check_true there]

theorem releaseRegion_more {i : Nat} {region : ShmRegion} (released : (world.calls.regions i).release = (region, none)) :
    world.releaseRegion id i = { world with
      calls := { world.calls with regions := update world.calls.regions i region }
      closes := update world.closes id (world.closes id + 1) } := by
  unfold releaseRegion
  rw [released]
  rfl

theorem Sound.closedRegion (sound : world.Sound fun _ => 0) (live : world.calls.live id = true) (shared : (world.calls.files id).type = .shm) :
    ∃ (after : FileWorld) (regions : Nat → ShmRegion), (releaseRegion { world with calls := world.calls.addRef id (-1) } id
        (world.calls.files id).privateData).deleteFile id = after ∧ (after.Sound fun _ => 0) ∧
      after.calls = { world.calls.addRef id (-1) with regions, live := update world.calls.live id false } := by
  obtain ⟨used, _⟩ := sound.shm id live shared
  obtain ⟨count, lt, regionInode, thatNode, _⟩ := sound.regions _ used
  have mem : id ∈ world.mapped (world.calls.files id).privateData := mem_mapped.mpr ⟨sound.lt_of_live live, live, shared, rfl⟩
  have pos := Finset.card_pos.mpr ⟨id, mem⟩
  let closing : FileWorld := { world with calls := world.calls.addRef id (-1) }
  by_cases last : (world.calls.regions (world.calls.files id).privateData).refCount = 1
  · rw [releaseRegion_last (show (closing.calls.regions _).release = _ from release_last used last)
      ((congrArg Option.isSome thatNode).trans rfl)]
    exact ⟨_, _, deleteFile_live live, sound.released live shared rfl (.inl ⟨count.symm.trans last, rfl, rfl⟩), rfl⟩
  · have more : 1 < (world.calls.regions (world.calls.files id).privateData).refCount := by omega
    rw [releaseRegion_more (show (closing.calls.regions _).release = _ from release_more used more lt)]
    refine ⟨_, _, deleteFile_live live, ?_, rfl⟩
    exact sound.released live shared rfl (.inr ⟨count ▸ more, used, congrArg (· - 1) count, rfl⟩)

theorem dropRef_live (live : world.calls.live id = true) : world.dropRef id = { world with calls := world.calls.addRef id (-1) } := by
  unfold dropRef
  rw [useFile_live live]

theorem Sound.vfsClose (sound : world.Sound fun _ => 0) (live : world.calls.live id = true) (last : (world.calls.files id).refCount ≤ 1) :
    ((world.vfsClose id).Sound fun _ => 0) ∧ ∃ regions, (world.vfsClose id).calls =
      { world.calls.addRef id (-1) with regions, live := update world.calls.live id false } := by
  unfold FileWorld.vfsClose tearDown
  rw [dropRef_live live]
  dsimp only
  rw [addRef_refCount, if_pos rfl, addRef_type, addRef_privateData, if_neg (by omega)]
  split
  case isTrue shared =>
    obtain ⟨after, regions, rfl, sound, calls⟩ := sound.closedRegion live shared
    exact ⟨sound, regions, calls⟩
  case isFalse plain =>
    obtain ⟨after, rfl, sound, calls⟩ := sound.closedNode live plain
    exact ⟨sound, _, calls⟩

theorem vfsClose_more (live : world.calls.live id = true) (more : 1 < (world.calls.files id).refCount) :
    world.vfsClose id = { world with calls := world.calls.addRef id (-1) } := by
  unfold FileWorld.vfsClose tearDown
  rw [dropRef_live live]
  dsimp only
  rw [addRef_refCount, if_pos rfl, if_pos (by omega)]

theorem Kept.vfsClose (kept : world.Kept (id :: held)) : (world.vfsClose id).Kept held := by
  have pre := kept.counted.refCount_held
  by_cases more : 1 < (world.calls.files id).refCount
  · rw [vfsClose_more kept.live more]
    exact ⟨kept.counted.release (by omega), kept.sound.recounted (-1), kept.anonymous⟩
  · obtain ⟨sound, regions, calls⟩ := kept.sound.vfsClose kept.live (by omega)
    refine ⟨?_, sound, calls ▸ kept.anonymous⟩
    rw [calls]
    exact kept.counted.delete (by omega) fun other ne => addRef_files_ne (-1) ne

theorem Kept.closeLast (kept : world.Kept (id :: held)) (last : world.calls.refs id + held.count id = 0) :
    (FileWorld.vfsClose { world with calls := world.calls.addRef id (-1) } id).Kept held := by
  have pre := kept.counted.refCount_held
  have few : ((world.calls.addRef id (-1)).files id).refCount ≤ 1 := by
    rw [addRef_refCount, if_pos rfl]
    omega
  obtain ⟨sound, regions, calls⟩ := (kept.sound.recounted (-1)).vfsClose kept.live few
  refine ⟨?_, sound, calls ▸ kept.anonymous⟩
  rw [calls]
  refine kept.counted.delete last fun other ne => ?_
  exact (addRef_files_ne (-1) ne).trans (addRef_files_ne (-1) ne)

/-! ## Descriptors -/

theorem Kept.closeDescriptor (kept : world.Kept (id :: held)) : (world.closeDescriptor id).Kept held := by
  have pre := kept.counted.refCount_held
  have pos : 0 < (world.calls.files id).refCount := by omega
  unfold FileWorld.closeDescriptor
  rw [useFile_live kept.live]
  dsimp only
  rw [if_pos pos, dropRef_live kept.live]
  split
  case isTrue last =>
    rw [addRef_refCount, if_pos rfl] at last
    exact kept.closeLast (by omega)
  case isFalse more =>
    rw [addRef_refCount, if_pos rfl] at more
    exact ⟨kept.counted.release (by omega), kept.sound.recounted (-1), kept.anonymous⟩

theorem Kept.dropDescriptor (kept : world.Kept (id :: held)) : (world.dropDescriptor (some id)).Kept held := by
  have pre := kept.counted.refCount_held
  unfold FileWorld.dropDescriptor
  dsimp only
  rw [dropRef_live kept.live]
  split
  case isTrue last =>
    rw [addRef_refCount, if_pos rfl] at last
    exact kept.closeLast (by omega)
  case isFalse more =>
    rw [addRef_refCount, if_pos rfl] at more
    exact ⟨kept.counted.release (by omega), kept.sound.recounted (-1), kept.anonymous⟩

theorem Kept.retainDescriptor (kept : world.Kept held) (live : world.calls.live id = true) :
    (world.retainDescriptor (some id)).Kept (id :: held) := by
  unfold FileWorld.retainDescriptor
  dsimp only
  rw [useFile_live live]
  exact ⟨kept.counted.retain live, kept.sound.recounted 1, kept.anonymous⟩

theorem mem_of_setTask {state : FileState} {pid : Nat} {task : Task} {new : Option Task} (mem : some task ∈ (state.setTask pid new).tasks) :
    new = some task ∨ some task ∈ state.tasks :=
  (mem_or_eq_of_mem_set mem).symm.imp_left Eq.symm

theorem Kept.setTask {held' : List FileId} {pid : Nat} {new : Option Task} (kept : world.Kept held)
    (counted : Counted (world.calls.setTask pid new) held')
    (anonymous : ∀ task, new = some task → ∀ area ∈ task.space.vmas, area.backingFile = none) : (world.setTask pid new).Kept held' where
  counted := counted
  sound := { kept.sound with }
  anonymous task mem := (mem_of_setTask mem).elim (anonymous task) (kept.anonymous task)

theorem Kept.areas {pid : Nat} {task : Task} (kept : world.Kept held) (h : world.calls.tasks[pid]? = some (some task)) :
    ∀ area ∈ task.space.vmas, area.backingFile = none := kept.anonymous task (mem_of_getElem? h)

theorem Kept.install {pid fd : Nat} {task : Task} (kept : world.Kept (id :: held)) (h : world.calls.tasks[pid]? = some (some task))
    (empty : task.fdTable[fd]? = some none) : (world.setTask pid (task.setDescriptor fd id)).Kept held :=
  kept.setTask (kept.counted.install h empty) fun own eq => by
    cases eq
    exact fun area mem => kept.areas h area mem

theorem Kept.take {pid fd : Nat} {task : Task} (kept : world.Kept held) (h : world.calls.tasks[pid]? = some (some task))
    (points : task.fdTable[fd]? = some (some id)) : (world.setTask pid (task.setDescriptor fd none)).Kept (id :: held) :=
  kept.setTask (kept.counted.take h points) fun own eq => by
    cases eq
    exact fun area mem => kept.areas h area mem

/-! ### Closing touches no table -/

section

variable {pid : Nat} {task : Option Task}

theorem closeDriver_setTask : (world.setTask pid task).closeDriver id = (world.closeDriver id).setTask pid task := by
  unfold closeDriver
  cases hf : world.nodes (world.nodeOf id) with
  | none =>
    rw [show (world.setTask pid task).nodes ((world.setTask pid task).nodeOf id) = none from hf]
    rfl
  | some node =>
    rw [show (world.setTask pid task).nodes ((world.setTask pid task).nodeOf id) = some node from hf]
    dsimp only
    split
    case h_1 => rfl
    case h_2 => rfl
    case h_3 =>
      unfold closePipe
      split <;> rfl
    case h_4 => rfl

theorem releaseNode_setTask : (world.setTask pid task).releaseNode id = (world.releaseNode id).setTask pid task := by
  unfold releaseNode
  cases hf : world.nodes (world.nodeOf id) with
  | none =>
    rw [show (world.setTask pid task).nodes ((world.setTask pid task).nodeOf id) = none from hf]
    rfl
  | some node =>
    rw [show (world.setTask pid task).nodes ((world.setTask pid task).nodeOf id) = some node from hf]
    dsimp only
    split <;> rfl

theorem releaseRegion_setTask (i : Nat) : (world.setTask pid task).releaseRegion id i = (world.releaseRegion id i).setTask pid task := by
  unfold releaseRegion
  by_cases last : (world.calls.regions i).release.2.isSome = true
  · rw [if_pos last]
    exact if_pos last
  · rw [if_neg last]
    exact if_neg last

theorem tearDown_setTask : (world.setTask pid task).tearDown id = (world.tearDown id).setTask pid task := by
  have files : (world.setTask pid task).calls.files id = world.calls.files id := rfl
  unfold tearDown
  dsimp only
  rw [files]
  split
  case isTrue => rfl
  case isFalse =>
    split
    · rw [releaseRegion_setTask]
      rfl
    · rw [closeDriver_setTask, releaseNode_setTask]
      rfl

theorem vfsClose_setTask : (world.setTask pid task).vfsClose id = (world.vfsClose id).setTask pid task := by
  have dropped : (world.setTask pid task).dropRef id = (world.dropRef id).setTask pid task := rfl
  unfold FileWorld.vfsClose
  rw [dropped, tearDown_setTask]

theorem closeDescriptor_setTask : (world.setTask pid task).closeDescriptor id = (world.closeDescriptor id).setTask pid task := by
  have used : (world.setTask pid task).useFile id = (world.useFile id).setTask pid task := rfl
  have files : ((world.useFile id).setTask pid task).calls.files id = (world.useFile id).calls.files id := rfl
  have dropped : ((world.useFile id).setTask pid task).dropRef id = ((world.useFile id).dropRef id).setTask pid task := rfl
  have rest : ∀ state : FileWorld, (if ((state.setTask pid task).calls.files id).refCount = 0 then (state.setTask pid task).vfsClose id
      else state.setTask pid task) = (if (state.calls.files id).refCount = 0 then state.vfsClose id else state).setTask pid task := by
    intro state
    rw [vfsClose_setTask, ← apply_ite (FileWorld.setTask · pid task)]
    rfl
  unfold FileWorld.closeDescriptor
  rw [used]
  dsimp only
  rw [files, dropped, ← apply_ite (FileWorld.setTask · pid task)]
  exact rest _

end

theorem tearDown_tasks : (world.tearDown id).calls.tasks = world.calls.tasks := by
  have driver : (world.closeDriver id).calls.tasks = world.calls.tasks := by
    unfold closeDriver
    split
    · rfl
    · dsimp only
      split
      · rfl
      · rfl
      · unfold closePipe
        split <;> rfl
      · rfl
  have node : ∀ state : FileWorld, (state.releaseNode id).calls.tasks = state.calls.tasks := by
    intro state
    unfold releaseNode
    split
    · rfl
    · split <;> rfl
  unfold tearDown
  dsimp only
  split
  · rfl
  · split
    · unfold releaseRegion
      dsimp only
      split <;> rfl
    · exact (node _).trans driver

theorem closeDescriptor_tasks : (world.closeDescriptor id).calls.tasks = world.calls.tasks := by
  have rest : ∀ state : FileWorld, (if (state.calls.files id).refCount = 0 then state.vfsClose id else state).calls.tasks =
      state.calls.tasks := by
    intro state
    split
    · exact tearDown_tasks
    · rfl
  refine (rest _).trans ?_
  split <;> rfl

/-! ### The calls on descriptors -/

section

variable {after : FileWorld} {pid : Nat}

theorem Kept.sysClose {fd : Nat} (kept : world.Kept []) (ht : world.sysClose pid fd = some after) : after.Kept [] := by
  unfold FileWorld.sysClose at ht
  split at ht
  case h_1 => exact some.inj ht ▸ kept
  case h_2 task h =>
  split at ht
  case h_1 => exact some.inj ht ▸ kept
  case h_2 id points =>
    cases ht
    rw [← closeDescriptor_setTask]
    exact (kept.take (tasks_of_task h) (slot_of_descriptor points)).closeDescriptor

theorem setTask_setTask (first snd : Option Task) : (world.setTask pid first).setTask pid snd = world.setTask pid snd := by
  unfold FileWorld.setTask
  rw [Process.setTask_setTask]

/-- The new descriptor of `Sys_Dup2` is cleared first; the old one keeps the file alive meanwhile. -/
theorem Kept.cleared {task : Task} {fd : Nat} (kept : world.Kept []) (h : world.calls.task pid = some task) (bound : fd < maxFileInProcess) :
    ∃ closed : FileWorld, closed.Kept [] ∧ closed.calls.tasks[pid]? = some (some (task.setDescriptor fd none)) ∧
      ∀ new, (world.clearDescriptor (task.descriptor fd)).setTask pid new = closed.setTask pid new := by
  have slot := tasks_of_task h
  cases points : task.descriptor fd with
  | some closing =>
    refine ⟨(world.setTask pid (task.setDescriptor fd none)).closeDescriptor closing, ?_, ?_, fun new => ?_⟩
    · exact (kept.take slot (slot_of_descriptor points)).closeDescriptor
    · rw [closeDescriptor_tasks]
      exact tasks_setTask _ slot
    · rw [closeDescriptor_setTask, setTask_setTask]
      rfl
  | none =>
    refine ⟨world.setTask pid (task.setDescriptor fd none), ?_, tasks_setTask _ slot, fun new => (setTask_setTask _ _).symm⟩
    refine kept.setTask (kept.counted.setTask slot fun file => ?_) fun own eq => ?_
    · obtain ⟨old, there⟩ : ∃ old, task.fdTable[fd]? = some old := ⟨_, getElem?_eq_getElem (task.slots.symm ▸ bound)⟩
      have unset : old = none := by
        rw [Task.descriptor, there] at points
        exact points
      have counts := count_setDescriptor task none there file
      rw [unset] at counts
      simp only [slotRefs]
      omega
    · cases eq
      exact fun area mem => kept.areas slot area mem

theorem Kept.sysDup2 {oldFd newFd : Nat} (kept : world.Kept []) (ht : world.sysDup2 pid oldFd newFd = some after) : after.Kept [] := by
  unfold FileWorld.sysDup2 at ht
  split at ht
  case h_1 => exact some.inj ht ▸ kept
  case h_2 task h =>
  split at ht
  case isTrue => exact some.inj ht ▸ kept
  case isFalse valid =>
  obtain ⟨bound, ne⟩ := not_or.mp valid
  split at ht
  case h_1 => exact some.inj ht ▸ kept
  case h_2 id points =>
    obtain ⟨closed, cleared, tasks, eq⟩ := kept.cleared h (Nat.lt_of_not_le bound)
    cases ht
    rw [eq]
    have alive : closed.calls.live id = true := by
      apply cleared.counted.live_of_refs
      have now : closed.calls.task pid = some (task.setDescriptor newFd none) := by
        rw [FileState.task, tasks]
        rfl
      apply refs_pos_of_descriptor oldFd now
      rw [Task.descriptor, Task.setDescriptor, getElem?_set_ne (Ne.symm ne), slot_of_descriptor points]
      rfl
    obtain ⟨old, there⟩ : ∃ old, task.fdTable[newFd]? = some old :=
      ⟨_, getElem?_eq_getElem (task.slots.symm ▸ Nat.lt_of_not_le bound)⟩
    have installed := (cleared.retainDescriptor alive).install (by
      exact tasks) (fdTable_setDescriptor task none there)
    rw [setDescriptor_setDescriptor] at installed
    exact installed

/-! ### `VFSManager::Open` -/

theorem Sound.lookup (sound : world.Sound fun _ => 0) (opened : OpenTry) :
    ((world.lookup opened).1.Sound fun _ => 0) ∧ (world.lookup opened).1.calls = world.calls ∧
      (world.lookup opened).1.nodes = world.nodes ∧ (world.lookup opened).1.cache = world.cache ∧
      ∀ owner inodeNum, (world.lookup opened).2 = some (owner, inodeNum) →
        owner ≠ .socket ∧ (owner = .pipe → (world.lookup opened).1.buffers inodeNum = true) := by
  unfold FileWorld.lookup
  split
  case h_1 => exact ⟨sound, rfl, rfl, rfl, nofun⟩
  case h_2 fs number _ =>
    refine ⟨sound, rfl, rfl, rfl, fun owner inodeNum hf => ?_⟩
    split at hf
    case isTrue => exact nomatch hf
    case isFalse =>
      obtain ⟨rfl, _⟩ := Prod.mk.inj (some.inj hf)
      exact ⟨nofun, nofun⟩
  case h_3 name _ =>
  split
  case isTrue => exact ⟨sound, rfl, rfl, rfl, nofun⟩
  case isFalse =>
  split
  case h_1 buf hf =>
    refine ⟨sound, rfl, rfl, rfl, fun owner inodeNum eq => ?_⟩
    cases eq
    refine ⟨nofun, fun _ => ?_⟩
    have keyed := sound.entries.held buf (KeyedSlots.lookup_eq_some hf).1
    unfold bufferKey at keyed
    split at keyed
    case isTrue live => exact live
    case isFalse => exact nomatch keyed
  case h_2 =>
  split
  case isFalse => exact ⟨sound, rfl, rfl, rfl, nofun⟩
  case isTrue =>
  unfold createNamedPipe
  split
  case isTrue =>
    refine ⟨sound.newBuffer true, rfl, rfl, rfl, fun owner inodeNum eq => ?_⟩
    cases eq
    exact ⟨nofun, fun _ => update_self ..⟩
  case isFalse => exact ⟨sound.newBuffer false, rfl, rfl, rfl, nofun⟩

theorem attached {opened : OpenTry} {ptr : Nat} {res : Option FileId} (cnt : Counted world.calls [])
    (sound : world.Sound (update (fun _ => 0) ptr 1)) (hf : world.nodes ptr = some node) (own : node.owner ≠ none)
    (anonymous : ∀ task, some task ∈ world.calls.tasks → ∀ area ∈ task.space.vmas, area.backingFile = none)
    (back : (world.addRef ptr (-1)).Sound fun _ => 0) (made : world.attachFile opened ptr = (after, res)) :
    after.Kept res.toList ∧ after.calls.tasks = world.calls.tasks := by
  obtain ⟨owner, own⟩ := ne_none_iff_exists'.mp own
  unfold attachFile at made
  split at made
  case isTrue =>
    cases made
    exact ⟨⟨cnt.newFile _ rfl, sound.opened hf own nofun fun at' => by by_cases h : at' = ptr <;> simp [h], anonymous⟩, rfl⟩
  case isFalse =>
    cases made
    exact ⟨⟨cnt, back, anonymous⟩, rfl⟩

theorem populated_key (opened : OpenTry) (owner : NodeOwner) (inodeNum : Nat) (notSocket : owner ≠ .socket) :
    ∃ named, (populated opened (owner, inodeNum)).owner = some named ∧ named ≠ .socket ∧ (named = .pipe → owner = .pipe) ∧
      (populated opened (owner, inodeNum)).inodeId = inodeNum ∧ (populated opened (owner, inodeNum)).refCount = 1 := by
  cases owner with
  | mounted fs => exact ⟨_, rfl, nofun, nofun, rfl, rfl⟩
  | pipe => exact ⟨_, rfl, nofun, fun _ => rfl, rfl, rfl⟩
  | socket => exact absurd rfl notSocket

theorem Kept.openPath {opened : OpenTry} {res : Option FileId} (kept : world.Kept []) (admits : world.AdmitsOpen opened)
    (ran : world.openPath opened = some (after, res)) : after.Kept res.toList ∧ after.calls.tasks = world.calls.tasks := by
  obtain ⟨sound, calls, nodes, cache, known⟩ := kept.sound.lookup opened
  have keys : (world.lookup opened).1.key = world.key := by
    unfold key
    rw [nodes]
  unfold FileWorld.openPath at ran
  split at ran
  case isTrue => cases ran
  case isFalse =>
  dsimp only at ran
  split at ran
  case h_1 =>
    cases ran
    exact ⟨⟨calls ▸ kept.counted, sound, calls ▸ kept.anonymous⟩, congrArg FileState.tasks calls⟩
  case h_2 owner inodeNum hf =>
  obtain ⟨notSocket, pipe⟩ := known owner inodeNum hf
  rw [scanCache, check_true (sound.scanned _)] at ran
  have tasks : (world.lookup opened).1.calls.tasks = world.calls.tasks := congrArg FileState.tasks calls
  split at ran
  case h_1 ptr cached =>
    -- An inode in the cache is cnt once more.
    obtain ⟨mem, keyed⟩ := KeyedSlots.lookup_eq_some cached
    obtain ⟨node, there, _⟩ := map_eq_some_iff.mp keyed
    have cnt : ((world.lookup opened).1.addRef ptr 1).Sound (update (fun _ => 0) ptr 1) := sound.addRef 1 (by simp)
    have now : ((world.lookup opened).1.addRef ptr 1).nodes ptr = some { node with refCount := node.refCount + if ptr = ptr then 1 else 0 } :=
      (nodes_addRef 1 ptr).trans (congrArg (Option.map _) there)
    obtain ⟨kept', eq⟩ := attached (calls ▸ kept.counted) cnt now (sound.cacheOwned ptr node mem there) (calls ▸ kept.anonymous)
      (by rw [addRef_addRef]; exact (congrArg (FileWorld.Sound · fun _ => 0) addRef_zero).mpr sound) (some.inj ran)
    exact ⟨kept', eq.trans tasks⟩
  case h_2 miss =>
  split at ran
  case isFalse =>
    cases ran
    exact ⟨⟨calls ▸ kept.counted, { sound with }, calls ▸ kept.anonymous⟩, tasks⟩
  case isTrue =>
    obtain ⟨fresh, alone⟩ := admits.2 owner inodeNum hf (by rw [← cache, ← keys]; exact miss)
    obtain ⟨named, own, plain, isPipe, inodeId, refCount⟩ := populated_key opened owner inodeNum notSocket
    have made : ((world.lookup opened).1.newNode (populated opened (owner, inodeNum)) true).Sound
        (update (fun _ => 0) (world.lookup opened).1.nextNode (populated opened (owner, inodeNum)).refCount) := by
      refine sound.newNode own plain (fun _ => by rw [keys, cache]; exact fresh) fun h => ?_
      rw [inodeId]
      refine ⟨pipe (isPipe h), fun ptr other there theirs => alone (isPipe h) ptr other (nodes ▸ there) theirs⟩
    rw [refCount] at made
    have back : (((world.lookup opened).1.newNode (populated opened (owner, inodeNum)) true).addRef (world.lookup opened).1.nextNode (-1)).Sound
        fun _ => 0 := by
      have cnt : (FileWorld.addRef _ (world.lookup opened).1.nextNode (-1)).Sound _ := made.addRef (-1) fun _ id below eq =>
        absurd eq (Nat.ne_of_lt (sound.nodeOfBound id below))
      refine cnt.even fun at' => ?_
      rw [update_self, update_apply, update_apply]
      split <;> rfl
    obtain ⟨kept', eq⟩ := attached (calls ▸ kept.counted) made (update_self ..) (own.trans_ne (some_ne_none _)) (calls ▸ kept.anonymous) back
      (some.inj ran)
    exact ⟨kept', eq.trans tasks⟩

theorem Kept.sysOpen {first : OpenTry} {again : Option OpenTry} (kept : world.Kept []) (admits : world.Admits (.open pid first again))
    (ht : world.sysOpen pid first again = some after) : after.Kept [] := by
  unfold FileWorld.sysOpen at ht
  split at ht
  case h_1 => exact some.inj ht ▸ kept
  case h_2 task h =>
    obtain ⟨⟨opened, res⟩, tried, rfl⟩ := map_eq_some_iff.mp ht
    obtain ⟨⟨once, hf⟩, ran, rest⟩ := bind_eq_some_iff.mp tried
    obtain ⟨kept', tasks⟩ := kept.openPath admits.1 ran
    have both : opened.Kept res.toList ∧ opened.calls.tasks = world.calls.tasks := by
      dsimp only at rest
      split at rest
      case h_1 again' =>
        obtain ⟨kept'', tasks'⟩ := kept'.openPath (admits.2 once again' ran rfl) rest
        exact ⟨kept'', tasks'.trans tasks⟩
      case h_2 =>
        cases rest
        exact ⟨kept', tasks⟩
    obtain ⟨both, tasks⟩ := both
    cases res with
    | none => exact both
    | some id =>
      dsimp only
      split
      case h_1 => exact both.vfsClose
      case h_2 fd empty => exact both.install (tasks ▸ tasks_of_task h) (slot_of_findIdx empty)

/-! ### Pipes and shared memory -/

theorem Kept.sysPipe {newOk copied : Bool} (kept : world.Kept []) (admits : world.Admits (.pipe pid newOk copied))
    (ht : world.sysPipe pid newOk copied = some after) : after.Kept [] := by
  unfold FileWorld.sysPipe at ht
  split at ht
  case h_1 => exact nomatch ht
  case h_2 task h =>
  split at ht
  case h_1 => exact some.inj ht ▸ kept
  case h_2 fdRead firstFree =>
  dsimp only at ht
  split at ht
  case h_1 => exact some.inj ht ▸ kept
  case h_2 fdWrite secondFree =>
  split at ht
  case isTrue => exact nomatch ht
  case isFalse =>
    have copies : copied = true := admits
    rw [if_pos copies] at ht
    cases ht
    have slot := tasks_of_task h
    let buffered : FileWorld := { world with
      buffers := update world.buffers world.nextBuffer true
      nextBuffer := world.nextBuffer + 1 }
    let ends : FileNode := ⟨world.nextBuffer, some .pipe, 2⟩
    have noded : (buffered.newNode ends false).Sound (update (fun _ => 0) world.nextNode 2) := by
      refine (kept.sound.newBuffer false).newNode rfl nofun nofun fun _ => ⟨update_self .., fun ptr other there isPipe eq => ?_⟩
      have live := (kept.sound.piped ptr other there isPipe).1
      exact absurd (kept.sound.bufferBound _ live) (eq ▸ Nat.lt_irrefl _)
    have there : (buffered.newNode ends false).nodes world.nextNode = some ends := update_self ..
    have first : (FileWorld.newFile (buffered.newNode ends false) ⟨.pipe, "anon_pipe_r", 1, 0, true⟩ world.nextNode).Sound
        (update (fun _ => 0) world.nextNode 1) :=
      noded.opened there rfl nofun fun at' => by by_cases h : at' = world.nextNode <;> simp [h]
    have snd : (FileWorld.newFile (FileWorld.newFile (buffered.newNode ends false) ⟨.pipe, "anon_pipe_r", 1, 0, true⟩ world.nextNode)
        ⟨.pipe, "anon_pipe_w", 1, 0, true⟩ world.nextNode).Sound fun _ => 0 :=
      first.opened there rfl nofun fun at' => by by_cases h : at' = world.nextNode <;> simp [h]
    have cnt := (kept.counted.newFile ⟨.pipe, "anon_pipe_r", 1, 0, true⟩ rfl).newFile ⟨.pipe, "anon_pipe_w", 1, 0, true⟩ rfl
    have swapped : Counted _ [world.calls.nextFile, world.calls.nextFile + 1] := cnt.congr fun file =>
      (List.Perm.swap _ _ []).count_eq file
    have made : Kept _ [world.calls.nextFile, world.calls.nextFile + 1] := ⟨swapped, snd, kept.anonymous⟩
    have reading := made.install slot (slot_of_findIdx firstFree)
    have writing := reading.install (tasks_setTask _ slot) (slot_of_findIdx secondFree)
    rw [setTask_setTask] at writing
    exact writing

theorem slot_of_refs {state : FileState} (anonymous : ∀ task, some task ∈ state.tasks → ∀ area ∈ task.space.vmas, area.backingFile = none)
    (points : 0 < state.refs id) : ∃ task, some task ∈ state.tasks ∧ some id ∈ task.fdTable := by
  by_contra nowhere
  have none_ : state.refs id = 0 := by
    apply sum_eq_zero
    intro count mem
    obtain ⟨slot, inTasks, rfl⟩ := mem_map.mp mem
    cases slot with
    | none => rfl
    | some task =>
      have absent : some id ∉ task.fdTable := fun entry => nowhere ⟨task, inTasks, entry⟩
      exact (congrArg₂ (· + ·) (count_eq_zero.mpr absent) (areaRefs_anonymous (anonymous task inTasks) id)).trans rfl
  exact Nat.ne_of_gt points none_

theorem live_le {state : FileState} (cnt : Counted state [])
    (anonymous : ∀ task, some task ∈ state.tasks → ∀ area ∈ task.space.vmas, area.backingFile = none) :
    ((Finset.range state.nextFile).filter fun id => state.live id = true).card ≤ maxTask * maxFileInProcess := by
  have subset : ((Finset.range state.nextFile).filter fun id => state.live id = true) ⊆
      (state.tasks.reduceOption.flatMap fun task => task.fdTable.reduceOption).toFinset := by
    intro id mem
    have pointed := (cnt.pointed id).mp (Finset.mem_filter.mp mem).2
    obtain ⟨task, inTasks, entry⟩ := slot_of_refs anonymous pointed
    rw [List.mem_toFinset, mem_flatMap]
    exact ⟨task, reduceOption_mem_iff.mpr inTasks, reduceOption_mem_iff.mpr entry⟩
  have each : ∀ count ∈ state.tasks.reduceOption.map fun task => task.fdTable.reduceOption.length, count ≤ maxFileInProcess := by
    intro count mem
    obtain ⟨task, _, rfl⟩ := mem_map.mp mem
    exact (reduceOption_length_le _).trans (Nat.le_of_eq task.slots)
  have total := sum_le_card_nsmul _ _ each
  rw [length_map] at total
  refine (Finset.card_le_card subset).trans ((toFinset_card_le _).trans ?_)
  rw [length_flatMap]
  exact total.trans (Nat.mul_le_mul_right _ ((reduceOption_length_le _).trans (Nat.le_of_eq state.taskSlots)))

theorem shmOpen_cases {regions regions' : Nat → ShmRegion} {name : String} {size phys i : Nat} {create : Bool}
    (opened : shmOpen regions name size phys create = some (i, regions')) :
    ∃ region, regions' = update regions i region ∧ region.used = true ∧
      ((regions i).used = true ∧ region.refCount = ((regions i).refCount + 1) % 2 ^ 32 ∨
        (regions i).used = false ∧ region.refCount = 1) := by
  unfold shmOpen at opened
  split at opened
  case h_1 j hf =>
    cases opened
    have both := find?_some hf
    rw [Bool.and_eq_true] at both
    exact ⟨_, rfl, both.1, .inl ⟨both.1, rfl⟩⟩
  case h_2 =>
  split at opened
  case isTrue => exact nomatch opened
  case isFalse =>
  split at opened
  case h_1 => exact nomatch opened
  case h_2 j hf =>
  split at opened
  case isTrue => exact nomatch opened
  case isFalse =>
    cases opened
    have free := find?_some hf
    exact ⟨_, rfl, rfl, .inr ⟨by simpa using free, rfl⟩⟩

theorem Sound.shmOpened {region : ShmRegion} {i : Nat} {name : String} (sound : world.Sound fun _ => 0) (used : region.used = true)
    (count : region.refCount = (world.mapped i).card + 1) (lt : region.refCount < 2 ^ 32) {inode : FileNode}
    (there : world.nodes (world.regionNode i) = some inode) (ownerless : inode.owner = none)
    (ne : ∀ j, (world.calls.regions j).used = true → world.regionNode j = world.regionNode i → j = i) :
    (newFile { world with calls := { world.calls with regions := update world.calls.regions i region } }
      ⟨.shm, name, 1, i, false⟩ (world.regionNode i)).Sound fun _ => 0 := by
  have others : ∀ j, j ≠ i → update world.calls.regions i region j = world.calls.regions j := fun j different =>
    update_of_ne different ..
  have mine : update world.calls.regions i region i = region := update_self ..
  refine sound.addFile (sound.nodeBound _ (there ▸ rfl)) (fun plain => absurd rfl plain) (fun _ => ⟨(congrArg ShmRegion.used mine).trans used, rfl⟩)
    (fun at' => by simp) (fun j theirs => ?_) (fun j theirs => ?_) fun j k first snd eq => ?_
  · by_cases h : j = i
    · rw [h, mine, used]
    · rwa [others j h]
  · by_cases h : j = i
    · grind
    · rw [others j h] at theirs ⊢
      simpa [h] using sound.regions j theirs
  · by_cases h : j = i
    · by_cases there' : k = i
      · rw [h, there']
      · grind
    · rw [others j h] at first
      by_cases there' : k = i
      · rw [there'] at eq ⊢
        exact ne j first eq
      · exact sound.regionsApart j k first (others k there' ▸ snd) eq

theorem Kept.shmMade {name text : String} {size phys i : Nat} {create : Bool} {regions : Nat → ShmRegion} (kept : world.Kept [])
    (opened : shmOpen world.calls.regions name size phys create = some (i, regions)) :
    let cnt : FileWorld := { world with calls := { world.calls with regions } }
    let made : FileWorld := if (world.calls.regions i).used then cnt
      else { cnt with
        nodes := update world.nodes world.nextNode (some ⟨i, none, 0⟩)
        nextNode := world.nextNode + 1
        regionNode := update world.regionNode i world.nextNode }
    (made.newFile ⟨.shm, text, 1, i, false⟩ (made.regionNode i)).Kept [world.calls.nextFile] := by
  obtain ⟨region, rfl, used, counts⟩ := shmOpen_cases opened
  have few : (world.mapped i).card + 1 < 2 ^ 32 := by
    have bound := live_le kept.counted kept.anonymous
    have subset : world.mapped i ⊆ (Finset.range world.calls.nextFile).filter fun id => world.calls.live id = true := by
      intro id mem
      obtain ⟨below, live, _⟩ := mem_mapped.mp mem
      exact Finset.mem_filter.mpr ⟨Finset.mem_range.mpr below, live⟩
    have le := Finset.card_le_card subset
    have total : maxTask * maxFileInProcess < 2 ^ 32 - 1 := by decide
    omega
  have cnt : Counted { world.calls with regions := update world.calls.regions i region } [] := kept.counted.regions
  have file := cnt.newFile ⟨.shm, text, 1, i, false⟩ rfl
  dsimp only
  rcases counts with ⟨pre, count⟩ | ⟨unused, count⟩
  · rw [if_pos pre]
    obtain ⟨old, _, inode, there, ownerless⟩ := kept.sound.regions i pre
    rw [old, Nat.mod_eq_of_lt few] at count
    exact ⟨file, kept.sound.shmOpened used count (count ▸ few) there ownerless fun j theirs eq => kept.sound.regionsApart j i theirs pre eq,
      kept.anonymous⟩
  · rw [if_neg (by rw [unused]; exact Bool.false_ne_true)]
    have nobody : world.mapped i = ∅ := by
      refine Finset.eq_empty_of_forall_notMem fun id mem => ?_
      obtain ⟨_, live, shared, data⟩ := mem_mapped.mp mem
      have theirs := (kept.sound.shm id live shared).1
      rw [data, unused] at theirs
      exact nomatch theirs
    have noded := kept.sound.newRegionNode unused (show (⟨i, none, 0⟩ : FileNode).owner = none from rfl)
    refine ⟨file, noded.shmOpened used ?_ (count ▸ by decide) ((congrArg _ (update_self ..)).trans (update_self ..)) rfl
      fun j theirs eq => ?_, kept.anonymous⟩
    · refine count.trans (congrArg (· + 1) ?_)
      exact (congrArg Finset.card nobody).symm
    · by_contra ne
      have old : update world.regionNode i world.nextNode j = world.regionNode j := update_of_ne ne ..
      have new : update world.regionNode i world.nextNode i = world.nextNode := update_self ..
      obtain ⟨_, _, inode, there, _⟩ := kept.sound.regions j theirs
      have below := kept.sound.nodeBound _ (there ▸ rfl : (world.nodes (world.regionNode j)).isSome)
      exact Nat.ne_of_lt below (old.symm.trans (eq.trans new))

theorem closeStale_eq {table : List (Option FileId)} (fine : ∀ id, some id ∈ table →
      world.calls.live id = true ∧ 0 < (world.calls.files id).refCount) : world.closeStale table = (world, table) := by
  induction table with
  | nil => rfl
  | cons entry rest ih =>
    have eq := ih fun id mem => fine id (mem_cons_of_mem _ mem)
    cases entry with
    | none =>
      unfold FileWorld.closeStale
      rw [eq]
    | some id =>
      obtain ⟨live, pos⟩ := fine id mem_cons_self
      unfold FileWorld.closeStale
      rw [useFile_live live]
      rw [if_neg (by omega), eq]

theorem Kept.table {task : Task} {held : List FileId} (kept : world.Kept held) (h : world.calls.task pid = some task) (id : FileId)
    (mem : some id ∈ task.fdTable) : world.calls.live id = true ∧ 0 < (world.calls.files id).refCount := by
  obtain ⟨fd, slot⟩ := getElem?_of_mem mem
  have points : 0 < world.calls.refs id := refs_pos_of_descriptor fd h (by rw [Task.descriptor, slot]; rfl)
  have live := kept.counted.live_of_refs points
  have count := kept.counted.counted id live
  exact ⟨live, by omega⟩

theorem Kept.placeShm {task : Task} (kept : world.Kept [id]) (h : world.calls.task pid = some task)
    (finds : none ∈ task.fdTable ∨ ∃ fd other, 3 ≤ fd ∧ task.descriptor fd = some other ∧ (world.calls.files other).refCount = 1) :
    (world.placeShm pid task id).Kept [] := by
  have slot := tasks_of_task h
  unfold FileWorld.placeShm
  split
  case h_1 fd empty => exact kept.install slot (slot_of_findIdx empty)
  case h_2 full =>
  obtain ⟨fd', other', high, points', single'⟩ := finds.resolve_left fun free => by
    have filled := findIdx?_eq_none_iff.mp full none free
    exact nomatch filled
  simp only [closeStale_eq fun id mem => kept.table h id mem, full]
  split
  case h_1 fd hf =>
    have single := find?_some hf
    cases points : task.descriptor fd with
    | none =>
      have eq : Task.descriptor { task with fdTable := task.fdTable } fd = none := points
      rw [eq] at single
      cases single
    | some other =>
      have cleared := kept.take slot (slot_of_descriptor points)
      have tasks : ((world.setTask pid (task.setDescriptor fd none)).vfsClose other).calls.tasks[pid]? =
          some (some (task.setDescriptor fd none)) := by
        rw [FileWorld.vfsClose, tearDown_tasks]
        exact tasks_setTask _ slot
      have installed := cleared.vfsClose.install tasks (fdTable_setDescriptor task none (slot_of_descriptor points))
      rw [setDescriptor_setDescriptor, vfsClose_setTask, setTask_setTask] at installed
      exact installed
  case h_2 miss =>
    have below : fd' < maxFileInProcess := by
      by_contra beyond
      have out : task.fdTable[fd']? = none := getElem?_eq_none (task.slots ▸ Nat.le_of_not_lt beyond)
      rw [Task.descriptor, out] at points'
      cases points'
    have inRange : fd' ∈ range' 3 (maxFileInProcess - 3) := by
      rw [mem_range'_1]
      omega
    have nothing := find?_eq_none.mp miss fd' inRange
    have eq : Task.descriptor { task with fdTable := task.fdTable } fd' = some other' := points'
    rw [eq] at nothing
    exact absurd (by simp [single']) nothing

theorem Kept.sysShmOpen {name : String} {size : UInt64} {phys : Nat} {create newOk : Bool} (kept : world.Kept [])
    (admits : world.Admits (.shmOpen pid name size phys create newOk))
    (ht : world.sysShmOpen pid name size.toNat phys create newOk = some after) : after.Kept [] := by
  unfold FileWorld.sysShmOpen at ht
  split at ht
  case h_1 => exact some.inj ht ▸ kept
  case h_2 task h =>
  split at ht
  case h_1 => exact some.inj ht ▸ kept
  case h_2 region regions opened =>
  split at ht
  case isTrue => cases ht
  case isFalse =>
    cases ht
    refine (kept.shmMade opened).placeShm ?_ ?_
    · rw [← h]
      split <;> rfl
    · refine (admits task h (opened ▸ rfl)).imp_right ?_
      rintro ⟨fd, id, high, points, single⟩
      refine ⟨fd, id, high, points, ?_⟩
      -- A file with a descriptor is not the new one.
      have live := (kept.table h id (mem_of_getElem? (slot_of_descriptor points))).1
      have ne : id ≠ world.calls.nextFile := Nat.ne_of_lt (kept.sound.lt_of_live live)
      rw [files_newFile, if_neg]
      · split <;> exact single
      · split <;> exact ne

/-! ### Tasks -/

theorem retainTable_eq {table : List (Option FileId)} (live : ∀ id, some id ∈ table → world.calls.live id = true) :
    table.foldl FileWorld.retainDescriptor world = { world with calls := table.foldl FileState.retainDescriptor world.calls } := by
  induction table generalizing world with
  | nil => rfl
  | cons entry rest ih =>
    rw [foldl_cons, foldl_cons]
    cases entry with
    | none => exact ih fun id mem => live id (mem_cons_of_mem _ mem)
    | some id =>
      have retained : world.retainDescriptor (some id) = { world with calls := world.calls.addRef id 1 } := by
        unfold FileWorld.retainDescriptor
        dsimp only
        rw [useFile_live (live id mem_cons_self)]
      rw [retained]
      exact ih fun other mem => live other (mem_cons_of_mem _ mem)

theorem Sound.retainTable {ahead : Nat → Int} (table : List (Option FileId)) (sound : world.Sound ahead) :
    Sound { world with calls := table.foldl FileState.retainDescriptor world.calls } ahead := by
  induction table generalizing world with
  | nil => exact sound
  | cons entry rest ih =>
    rw [foldl_cons]
    cases entry with
    | none => exact ih sound
    | some id => exact ih (sound.recounted 1)

theorem Kept.sysFork {taskOk stackOk cloneOk : Bool} {newOk : Nat → Bool} (kept : world.Kept [])
    (admits : world.Admits (.fork pid taskOk stackOk cloneOk newOk))
    (ht : world.sysFork pid taskOk stackOk cloneOk newOk = some after) : after.Kept [] := by
  unfold FileWorld.sysFork at ht
  split at ht
  case h_1 => exact some.inj ht ▸ kept
  case h_2 task h =>
    obtain ⟨calls, forked, rfl⟩ := map_eq_some_iff.mp ht
    have forks : world.calls.Forks pid taskOk stackOk cloneOk := by
      refine fun enough => ⟨fun own isOwn => kept.areas (tasks_of_task isOwn), ?_⟩
      exact admits enough
    have cnt := kept.counted.sysFork forks forked
    have used : (if taskOk then task.fdTable.foldl FileWorld.retainDescriptor world else world) =
        { world with calls := if taskOk then task.fdTable.foldl FileState.retainDescriptor world.calls else world.calls } := by
      split
      · exact retainTable_eq fun id mem => (kept.table h id mem).1
      · rfl
    rw [used]
    have shared : (Sound { world with calls := calls } fun _ => 0) ∧
        ∀ own, some own ∈ calls.tasks → own = task ∨ some own ∈ world.calls.tasks := by
      have retained := kept.sound.retainTable task.fdTable
      have tasks := foldl_retain_tasks task.fdTable world.calls
      unfold FileState.sysFork at forked
      rw [h] at forked
      dsimp only at forked
      split at forked
      case isTrue => exact some.inj forked ▸ ⟨kept.sound, fun _ => .inr⟩
      case isFalse =>
      split at forked
      case isTrue => exact some.inj forked ▸ ⟨retained, fun _ mem => .inr (tasks ▸ mem)⟩
      case isFalse =>
      split at forked
      case isTrue => exact nomatch forked
      case isFalse =>
      split at forked
      case h_1 => exact some.inj forked ▸ ⟨retained, fun _ mem => .inr (tasks ▸ mem)⟩
      case h_2 child _ =>
        cases forked
        refine ⟨{ retained with }, fun own mem => ?_⟩
        rcases mem_of_setTask mem with eq | earlier
        · exact .inl (some.inj eq).symm
        · exact .inr (tasks ▸ earlier)
    refine ⟨cnt, shared.1, fun own mem => ?_⟩
    rcases shared.2 own mem with rfl | earlier
    · exact kept.areas (tasks_of_task h)
    · exact kept.anonymous own earlier

theorem Kept.dropTable {table : List (Option FileId)} {held : List FileId} (kept : world.Kept (table.reduceOption ++ held)) :
    (table.foldl FileWorld.dropDescriptor world).Kept held := by
  induction table generalizing world with
  | nil => exact kept
  | cons entry rest ih =>
    cases entry with
    | none => exact ih kept
    | some id => exact ih (Kept.dropDescriptor kept)

theorem Kept.destroyTask (kept : world.Kept []) (ht : world.destroyTask pid = some after) : after.Kept [] := by
  unfold FileWorld.destroyTask at ht
  split at ht
  case h_1 => exact some.inj ht ▸ kept
  case h_2 task h =>
  split at ht
  case isTrue => exact some.inj ht ▸ kept
  case isFalse =>
    cases ht
    apply Kept.dropTable
    refine kept.setTask (kept.counted.setTask (tasks_of_task h) fun id => ?_) nofun
    have none_ := areaRefs_anonymous (kept.areas (tasks_of_task h)) id
    have entries := count_reduceOption task.fdTable id
    simp only [slotRefs, Task.refs, append_nil, count_nil]
    omega

theorem Kept.transfer {fd : Nat} (kept : world.Kept []) (ht : world.transfer pid fd = some after) : after = world := by
  unfold FileWorld.transfer at ht
  split at ht
  case h_1 => exact (some.inj ht).symm
  case h_2 task h =>
  split at ht
  case h_1 => exact (some.inj ht).symm
  case h_2 id points =>
    have live := (kept.table h id (mem_of_getElem? (slot_of_descriptor points))).1
    have there := kept.sound.inode_of_live live
    rw [useFile_live live, useNode, check_true there] at ht
    split at ht
    case h_1 => exact (some.inj ht).symm
    case h_2 node hf =>
      refine (some.inj ht).symm.trans ?_
      split
      case isTrue isPipe => exact check_true (kept.sound.piped _ node hf isPipe).1
      case isFalse => rfl

theorem Kept.step (kept : world.Kept []) (op : FileOp) (admits : world.Admits op) (ht : world.step op = some after) : after.Kept [] := by
  cases op with
  | «open» pid first again => exact kept.sysOpen admits ht
  | socket pid inet node type privateData alloc =>
    have refused : world.sysSocket pid inet node type privateData alloc = some world := by
      unfold sysSocket
      split
      case h_1 => rfl
      case h_2 task h =>
      split
      case isTrue => rfl
      case isFalse isInet =>
        have full := admits (by simpa using isInet) task h
        split
        case h_1 => rfl
        case h_2 fd empty => exact absurd (mem_of_getElem? (slot_of_findIdx empty)) full
    exact some.inj (refused.symm.trans ht) ▸ kept
  | pipe pid newOk copied => exact kept.sysPipe admits ht
  | shmOpen pid name size phys create newOk => exact kept.sysShmOpen admits ht
  | dup2 pid oldFd newFd => exact kept.sysDup2 ht
  | fork pid taskOk stackOk cloneOk newOk => exact kept.sysFork admits ht
  | close pid fd => exact kept.sysClose ht
  | destroyTask pid => exact kept.destroyTask ht
  | transfer pid fd => exact (kept.transfer ht).symm ▸ kept

end

/-! ## Runs -/

theorem Kept.pointed_iff (kept : world.Kept []) : world.Pointed id ↔ world.calls.live id = true := by
  constructor
  · rintro ⟨pid, task, fd, h, points⟩
    exact kept.counted.live_of_refs (refs_pos_of_descriptor fd h points)
  · intro live
    have points := (kept.counted.pointed id).mp live
    obtain ⟨task, inTasks, entry⟩ := slot_of_refs kept.anonymous points
    obtain ⟨pid, slot⟩ := getElem?_of_mem inTasks
    obtain ⟨fd, there⟩ := getElem?_of_mem entry
    exact ⟨pid, task, fd, by rw [FileState.task, slot]; rfl, by rw [Task.descriptor, there]; rfl⟩

theorem Kept.tornDownOnce (kept : world.Kept []) : world.TornDownOnce where
  whole := kept.sound.whole
  pointed id below points := by
    have live := kept.pointed_iff.mp points
    obtain ⟨closed, deleted⟩ := kept.sound.torn id below
    rw [if_pos live] at closed deleted
    exact ⟨live, closed, deleted⟩
  torn id below unpointed := by
    have dead : world.calls.live id = false := Bool.eq_false_of_not_eq_true fun live => unpointed (kept.pointed_iff.mpr live)
    obtain ⟨closed, deleted⟩ := kept.sound.torn id below
    rw [dead] at closed deleted
    exact ⟨dead, closed, deleted⟩
  inode id below := by
    constructor
    · intro there
      exact (kept.sound.left id below there).resolve_right (Int.lt_irrefl 0)
    · rintro ⟨other, live, eq⟩
      exact eq ▸ kept.sound.inode_of_live live
  buffer ptr node hf isPipe := (kept.sound.piped ptr node hf isPipe).1
  bufferGone ptr buf made dead := by
    by_contra live
    obtain ⟨node, there, _⟩ := (kept.sound.buffered ptr buf made).2 (by simpa using live)
    exact nomatch dead.symm.trans there

theorem kept_initial {tasks : FileState} (booted : Booted tasks) : (initial tasks).Kept [] where
  counted := booted.toBooted.good.counted
  anonymous task mem area inArea := (booted.anonymous task mem area inArea).1
  sound := by
    have noFile : ∀ id, ¬ id < (initial tasks).calls.nextFile := fun id below => by
      rw [show (initial tasks).calls.nextFile = 0 from booted.nextFile] at below
      exact nomatch below
    have noneLive : ∀ id, (initial tasks).calls.live id ≠ true := fun id live => nomatch (booted.dead id).symm.trans live
    have unused : ∀ i, ((initial tasks).calls.regions i).used ≠ true := fun i used => nomatch (booted.unused i).symm.trans used
    have empty : ∀ (n : Nat) (obj : Nat), some obj ∉ replicate n (none : Option Nat) := fun n obj mem =>
      nomatch eq_of_mem_replicate mem
    exact {
      whole := rfl
      torn := fun id below => absurd below (noFile id)
      beyond := fun id _ => ⟨booted.dead id, rfl, rfl⟩
      noded := fun id live => absurd live (noneLive id)
      counts := fun _ _ _ found => nomatch found
      left := fun id below => absurd below (noFile id)
      shm := fun id live => absurd live (noneLive id)
      regions := fun i used => absurd used (unused i)
      regionsApart := fun i _ used => absurd used (unused i)
      piped := fun _ _ found => nomatch found
      pipesApart := fun _ _ _ _ found => nomatch found
      buffered := fun _ _ made => nomatch made
      notSocket := fun _ _ found => nomatch found
      cached := ⟨fun obj mem => absurd mem (empty _ obj), fun _ _ obj _ there => absurd (mem_of_getElem? there) (empty _ obj)⟩
      cacheOwned := fun obj _ mem => absurd mem (empty _ obj)
      entries := ⟨fun obj mem => absurd mem (empty _ obj), fun _ _ obj _ there => absurd (mem_of_getElem? there) (empty _ obj)⟩
      nodeBound := fun _ there => nomatch there
      bufferBound := fun _ live => nomatch live
      bufferOfBound := fun _ made => nomatch made
      nodeOfBound := fun id below => absurd below (noFile id) }

/-- In every run whose calls meet their condition, every file is torn down once, when its last descriptor goes. -/
theorem files_torn_down_once {tasks : FileState} (booted : Booted tasks) (reached : Reaches step Admits (initial tasks) world) :
    world.TornDownOnce :=
  (reached.invariant (fun world => world.Kept []) (kept_initial booted) fun _ op _ kept admits ht => kept.step op admits ht).tornDownOnce

theorem singleTask_booted : Booted singleTask where
  toBooted := Process.singleTask_booted
  nextFile := rfl
  unused _ := rfl

/-- A pipe is made and one of its ends closed. -/
theorem files_torn_down_once_pipe : ∃ world, Reaches step Admits (initial singleTask) world ∧ world.closes 0 = 1 ∧ world.deletes 0 = 1 ∧
    world.closes 1 = 0 ∧ world.TornDownOnce := by
  have made : ((step (initial singleTask) (.pipe 10 true true)).bind (step · (.close 10 0))).map
      (fun world => (world.closes 0, world.deletes 0, world.closes 1)) = some (1, 1, 0) := by
    decide +kernel
  obtain ⟨world, ran, values⟩ := map_eq_some_iff.mp made
  obtain ⟨piped, first, snd⟩ := bind_eq_some_iff.mp ran
  simp only [Prod.mk.injEq] at values
  have hr : Reaches step Admits (initial singleTask) world := .next (.close 10 0) (.next (.pipe 10 true true) .start rfl first) trivial snd
  exact ⟨world, hr, values.1, values.2.1, values.2.2, files_torn_down_once singleTask_booted hr⟩

/-- A failed fork leaves the count of the file raised: its last descriptor goes, and it is neither closed nor deleted. -/
theorem failed_fork_leaks : ∃ world, Reaches step (fun _ _ => True) (initial singleTask) world ∧ ¬ world.TornDownOnce := by
  have made : (((step (initial singleTask) (.open 10 ⟨some (.mounted (.driver 0) 12 (some 70)), "/a", false, true, true⟩ none)).bind
      (step · (.fork 10 true true false fun _ => true))).bind (step · (.close 10 0))).map
        (fun world => (world.calls.nextFile, world.closes 0, world.calls.tasks.all fun slot => slot.all fun task =>
          task.fdTable.all Option.isNone)) = some (1, 0, true) := by
    decide +kernel
  obtain ⟨world, ran, values⟩ := map_eq_some_iff.mp made
  obtain ⟨forked, earlier, third⟩ := bind_eq_some_iff.mp ran
  obtain ⟨opened, first, snd⟩ := bind_eq_some_iff.mp earlier
  simp only [Prod.mk.injEq] at values
  obtain ⟨next, closed, empty⟩ := values
  have hr : Reaches step (fun _ _ => True) (initial singleTask) world := .next _ (.next _ (.next _ .start trivial first) trivial snd) trivial third
  refine ⟨world, hr, fun once => ?_⟩
  have unpointed : ¬ world.Pointed 0 := by
    rintro ⟨pid, task, fd, h, points⟩
    have table := all_eq_true.mp empty _ (mem_of_getElem? (tasks_of_task h))
    exact nomatch all_eq_true.mp table _ (mem_of_getElem? (slot_of_descriptor points))
  exact nomatch closed.symm.trans (once.torn 0 (next.symm ▸ Nat.one_pos) unpointed).2.1

end RosKernel.Filesys.FileWorld
