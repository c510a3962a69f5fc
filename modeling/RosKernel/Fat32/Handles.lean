import RosKernel.Fat32.Insertion

/-! The nodes that the calls on paths work with, as addresses.

`Lookup` returns the address of a new `FAT32_VNode` in 64 bits. `Stat`, `CreateNode`, `Delete`,
`Rename`, `MKDir` and `RMDir` keep it in a `U32`, take zero for a path that was not found, and cast
what is left back to a pointer.
-/

set_option autoImplicit false

namespace RosKernel.Fat32

open Library

/-- Where the nodes are. `place` is the allocator's answer to each `new`, which is never null, and
`node` what the memory at an address reads as. The lists are what `Lookup` returned to a call, and
what the call looked into and deleted. -/
structure NodeHeap where
  place : Nat → { address : UInt64 // address ≠ 0 }
  node : UInt64 → VNode
  made : Nat
  returned : List UInt64 := []
  inspected : List UInt64 := []
  freed : List UInt64 := []

inductive FileType where
  | normal
  | dir
deriving DecidableEq

def VNode.type (node : VNode) : FileType := if node.isDirectory then .dir else .normal

structure FileInfo where
  size : Nat
  inodeID : UInt64
  isDirectory : Bool
  type : FileType
  mode : Nat
  creationTime : Nat

/-- What `PopulateInode` fills in. -/
structure InodeData where
  type : FileType
  fileSize : Nat
  inodeID : UInt64

/-- `(UPTR)(U32)id`. -/
def narrow (id : UInt64) : UInt64 := id.toUInt32.toUInt64

namespace NodeHeap

variable (g : Geometry) (volume : Volume)

/-- A path that is not found costs a node too, which `Lookup` deletes itself. -/
def lookup (path : Name) (heap : NodeHeap) : UInt64 × NodeHeap :=
  match volume.lookup g path with
  | none => (0, { heap with made := heap.made + if path.isEmpty then 0 else 1 })
  | some found =>
    let id := (heap.place heap.made).val
    (id, { heap with
      node := Function.update heap.node id found
      made := heap.made + 1
      returned := heap.returned ++ [id] })

def populateInode (heap : NodeHeap) (inodeID : UInt64) : Option InodeData :=
  if inodeID = 0 then none else some ⟨(heap.node inodeID).type, (heap.node inodeID).fileSize, inodeID⟩

def inspect (id : UInt64) (heap : NodeHeap) : NodeHeap := { heap with inspected := heap.inspected ++ [id] }

def free (id : UInt64) (heap : NodeHeap) : NodeHeap := { heap with freed := heap.freed ++ [id] }

/-- `U32 id = Lookup(path)`, and the node that the call takes it for. -/
def handle (path : Name) (heap : NodeHeap) : Option UInt64 × NodeHeap :=
  let (id, found) := heap.lookup g volume path
  (if narrow id = 0 then none else some (narrow id), found)

def stat (path : Name) (heap : NodeHeap) : Option FileInfo × NodeHeap :=
  match heap.handle g volume path with
  | (none, found) => (none, found)
  | (some id, found) =>
    let node := found.node id
    (some ⟨node.fileSize, id, node.isDirectory, node.type, if node.isDirectory then 0o755 else 0o644, 0⟩,
      (found.inspect id).free id)

/-- A call in the directory at the end of a path. -/
def onParent {α : Type} (path : Name) (failed : α) (call : Nat → Volume × α) (heap : NodeHeap) : (Volume × α) × NodeHeap :=
  match heap.handle g volume path with
  | (none, found) => ((volume, failed), found)
  | (some id, found) =>
    (if (found.node id).isDirectory then call (found.node id).startCluster else (volume, failed), (found.inspect id).free id)

/-- The end of `CreateNode`: the new node is for the caller, who gets its address in 64 bits. -/
def adopt (heap : NodeHeap) (created : Volume × Option VNode) : (Volume × UInt64) × NodeHeap :=
  match created with
  | (after, none) => ((after, 0), heap)
  | (after, some node) =>
    let id := (heap.place heap.made).val
    ((after, id), { heap with node := Function.update heap.node id node, made := heap.made + 1 })

section

variable (path : Name) (heap : NodeHeap)
include path heap

def createNode : (Volume × UInt64) × NodeHeap :=
  if path.isEmpty || path == [slash] then ((volume, 0), heap)
  else
    match splitLast slash path with
    | none => heap.adopt (volume.createNodeIn g g.rootDirCluster path)
    | some (parentPath, fileName) =>
      let call := fun parent => if fileName.isEmpty then (volume, none) else volume.createNodeIn g parent fileName
      if parentPath.isEmpty then heap.adopt (call g.rootDirCluster)
      else
        let (created, found) := heap.onParent g volume parentPath none call
        found.adopt created

def delete : (Volume × Bool) × NodeHeap :=
  match parentAndName path with
  | none => ((volume, false), heap)
  | some (parentPath, name) => heap.onParent g volume parentPath false fun parent => volume.deleteIn g parent name

def rmDir : (Volume × Bool) × NodeHeap :=
  match parentAndName path with
  | none => ((volume, false), heap)
  | some (parentPath, name) => heap.onParent g volume parentPath false fun parent => volume.rmDirIn g parent name

def mkDir : (Volume × Bool) × NodeHeap :=
  if path.head? != some slash then ((volume, false), heap)
  else
    match heap.handle g volume path with
    | (some existing, found) => ((volume, false), found.free existing)
    | (none, missed) =>
      match parentAndName path with
      | none => ((volume, false), missed)
      | some (parentPath, newName) => missed.onParent g volume parentPath false fun parent => volume.mkDirIn g parent newName

end

/-- `Rename` with the parent of the old name, which is read again when that of the new name is there. -/
def renameFrom (oldName newParentPath newName : Name) (oldParent : UInt64) (heap : NodeHeap) : (Volume × Bool) × NodeHeap :=
  let first := heap.inspect oldParent
  if !(first.node oldParent).isDirectory then ((volume, false), first.free oldParent)
  else
    match volume.findFileInDir g oldName (first.node oldParent).startCluster with
    | none => ((volume, false), first.free oldParent)
    | some oldDe =>
      if oldDe.entry.isDirectory then ((volume, false), first.free oldParent)
      else
        match first.handle g volume newParentPath with
        | (none, missed) => ((volume, false), missed.free oldParent)
        | (some newParent, found) =>
          let both := found.inspect newParent
          let node := both.node newParent
          let outcome :=
            if !node.isDirectory then (volume, false)
            else if (volume.findFileInDir g newName node.startCluster).isSome then (volume, false)
            else
              match volume.createDirectoryEntry g node.startCluster newName oldDe.entry.startCluster oldDe.entry.fileSize with
              | (after, none) => (after, false)
              | (after, some _) => (after.removeDirectoryEntryAndLFNs g (both.node oldParent).startCluster oldDe.address, true)
          (outcome, (both.free oldParent).free newParent)

def rename (oldPath newPath : Name) (heap : NodeHeap) : (Volume × Bool) × NodeHeap :=
  match parentAndName oldPath, parentAndName newPath with
  | some (oldParentPath, oldName), some (newParentPath, newName) =>
    match heap.handle g volume oldParentPath with
    | (none, found) => ((volume, false), found)
    | (some oldParent, found) => found.renameFrom g volume oldName newParentPath newName oldParent
  | _, _ => ((volume, false), heap)

end NodeHeap

inductive NodeCall where
  | stat (path : Name)
  | createNode (path : Name)
  | delete (path : Name)
  | rename (oldPath newPath : Name)
  | mkDir (path : Name)
  | rmDir (path : Name)

namespace NodeCall

section

variable (g : Geometry) (volume : Volume)
include g volume

/-- The nodes after a call. -/
def run : NodeCall → NodeHeap → NodeHeap
  | stat path, heap => (heap.stat g volume path).2
  | createNode path, heap => (heap.createNode g volume path).2
  | delete path, heap => (heap.delete g volume path).2
  | rename oldPath newPath, heap => (heap.rename g volume oldPath newPath).2
  | mkDir path, heap => (heap.mkDir g volume path).2
  | rmDir path, heap => (heap.rmDir g volume path).2

/-- The number of the node that `Lookup` returns, if the path is found. -/
def obtained (number : Nat) (path : Name) : List Nat :=
  if (volume.lookup g path).isSome then [number] else []

def obtainedParent (number : Nat) (path : Name) : List Nat :=
  match parentAndName path with
  | none => []
  | some (parentPath, _) => obtained g volume number parentPath

/-- The node is that of a directory with a file of this name. -/
def movable (oldName : Name) (parent : VNode) : Bool :=
  parent.isDirectory && (volume.findFileInDir g oldName parent.startCluster).any (!·.entry.isDirectory)

/-- The nodes that `Lookup` returns to a call, by their numbers among those made from then on. -/
def obtains : NodeCall → List Nat
  | stat path => obtained g volume 0 path
  | createNode path =>
    match splitLast slash path with
    | none => []
    | some (parentPath, _) => if parentPath.isEmpty then [] else obtained g volume 0 parentPath
  | delete path | rmDir path => obtainedParent g volume 0 path
  | mkDir path =>
    if path.head? != some slash then []
    else if (volume.lookup g path).isSome then [0]
    else obtainedParent g volume 1 path
  | rename oldPath newPath =>
    match parentAndName oldPath, parentAndName newPath with
    | some (oldParentPath, oldName), some (newParentPath, _) =>
      match volume.lookup g oldParentPath with
      | none => []
      | some parent => 0 :: if movable g volume oldName parent then obtained g volume 1 newParentPath else []
    | _, _ => []

end

end NodeCall

namespace NodeHeap

/-- The call deleted each node that it got once, and looked into no other. -/
structure Right (heap : NodeHeap) : Prop where
  frees : heap.freed = heap.returned
  inspects : ∀ id ∈ heap.inspected, id ∈ heap.returned

/-- The allocator's answer fits in 32 bits. -/
def Low (heap : NodeHeap) (number : Nat) : Prop := (heap.place number).val.toNat < 2 ^ 32

/-- A call begins. -/
def start (place : Nat → { address : UInt64 // address ≠ 0 }) (node : UInt64 → VNode) (made : Nat) : NodeHeap :=
  { place, node, made }

end NodeHeap

/-- The nodes that a call works with are those that `Lookup` returned to it. -/
structure Survives (g : Geometry) (volume : Volume) (call : NodeCall) (heap : NodeHeap) : Prop where
  right : (call.run g volume heap).Right
  reports : ∀ path, call = .stat path → (heap.stat g volume path).1.map (fun info => (info.size, info.type)) =
    ((heap.lookup g volume path).2.populateInode (heap.lookup g volume path).1).map fun inode => (inode.fileSize, inode.type)

theorem narrow_eq_iff (id : UInt64) : narrow id = id ↔ id.toNat < 2 ^ 32 := by
  rw [← UInt64.toNat_inj, narrow, UInt32.toNat_toUInt64, UInt64.toNat_toUInt32]
  omega

namespace NodeHeap

variable {g : Geometry} {volume : Volume} {heap : NodeHeap} {path : Name} {node : VNode}

/-- `Lookup` has made a node for what it found. -/
def stored (heap : NodeHeap) (node : VNode) : NodeHeap := { heap with
  node := Function.update heap.node (heap.place heap.made).val node
  made := heap.made + 1
  returned := heap.returned ++ [(heap.place heap.made).val] }

theorem lookup_found (hf : volume.lookup g path = some node) :
    heap.lookup g volume path = ((heap.place heap.made).val, heap.stored node) := by
  rw [lookup, hf]
  rfl

theorem handle_missed (missed : volume.lookup g path = none) : heap.handle g volume path =
    (none, { heap with made := heap.made + if path.isEmpty then 0 else 1 }) := by
  rw [handle, lookup, missed]
  rfl

section

variable (hf : volume.lookup g path = some node)
include hf

theorem handle_found : heap.handle g volume path =
    (if narrow (heap.place heap.made).val = 0 then none else some (narrow (heap.place heap.made).val), heap.stored node) := by
  rw [handle, lookup_found hf]

theorem handle_low (low : heap.Low heap.made) :
    heap.handle g volume path = (some (heap.place heap.made).val, heap.stored node) := by
  rw [handle_found hf, (narrow_eq_iff _).mpr low, if_neg (heap.place heap.made).property]

theorem handle_high (high : ¬ heap.Low heap.made) :
    ∃ answer, heap.handle g volume path = (answer, heap.stored node) ∧ answer ≠ some (heap.place heap.made).val := by
  refine ⟨_, handle_found hf, fun eq => high ((narrow_eq_iff _).mp ?_)⟩
  split at eq
  · exact nomatch eq
  · exact Option.some.inj eq

end

/-- A call without nodes so far. -/
structure Fresh (heap : NodeHeap) : Prop where
  returned : heap.returned = []
  inspected : heap.inspected = []
  freed : heap.freed = []

theorem forall_obtained {number : Nat} {P : Nat → Prop} :
    (∀ k ∈ NodeCall.obtained g volume number path, P k) ↔ ((volume.lookup g path).isSome → P number) := by
  rw [NodeCall.obtained]
  split
  case isTrue some => simp [some]
  case isFalse none => simp [none]

theorem Fresh.right (fresh : heap.Fresh) : heap.Right :=
  ⟨fresh.freed.trans fresh.returned.symm, fun _ mem => nomatch fresh.inspected ▸ mem⟩

section

variable {α : Type} (failed : α) (call : Nat → Volume × α)
include failed call

theorem onParent_short (short : heap.freed.length < heap.returned.length) :
    ¬ (heap.onParent g volume path failed call).2.Right := by
  intro right
  have lengths := congrArg List.length right.frees
  cases hf : volume.lookup g path with
  | none =>
    rw [onParent, handle_missed hf] at lengths
    exact absurd lengths (Nat.ne_of_lt short)
  | some node =>
    rw [onParent, handle_found hf] at lengths
    by_cases zero : narrow (heap.place heap.made).val = 0
    · rw [if_pos zero] at lengths
      simp only [stored, List.length_append, List.length_singleton] at lengths
      omega
    · rw [if_neg zero] at lengths
      simp only [stored, inspect, free, List.length_append, List.length_singleton] at lengths
      omega

theorem onParent_right_iff (fresh : heap.Fresh) :
    (heap.onParent g volume path failed call).2.Right ↔ ((volume.lookup g path).isSome → heap.Low heap.made) := by
  cases hf : volume.lookup g path with
  | none =>
    rw [onParent, handle_missed hf]
    exact iff_of_true ⟨fresh.right.frees, fresh.right.inspects⟩ nofun
  | some node =>
    obtain ⟨returned, inspected, freed⟩ := fresh
    constructor
    · intro right _
      by_contra high
      obtain ⟨answer, handled, ne⟩ := handle_high hf high
      have frees := right.frees
      rw [onParent, handled] at frees
      cases answer with
      | none => simp [stored, returned, freed] at frees
      | some id =>
        simp only [stored, inspect, free, returned, freed, List.nil_append, List.cons.injEq, and_true] at frees
        exact ne (congrArg some frees)
    · intro low
      rw [onParent, handle_low hf (low rfl)]
      exact ⟨by simp [stored, inspect, free, returned, freed], by simp [stored, inspect, free, returned, inspected]⟩

theorem onParent_obtained (fresh : heap.Fresh) :
    (heap.onParent g volume path failed call).2.Right ↔ ∀ k ∈ NodeCall.obtained g volume 0 path, heap.Low (heap.made + k) := by
  rw [forall_obtained (P := fun k => heap.Low (heap.made + k))]
  exact onParent_right_iff failed call fresh

end

theorem stat_nodes : (heap.stat g volume path).2 = (heap.onParent g volume path () fun _ => (volume, ())).2 := by
  rw [stat, onParent]
  split <;> rfl

theorem renameFrom_nodes (oldName newParentPath newName : Name) (oldParent : UInt64) :
    (heap.renameFrom g volume oldName newParentPath newName oldParent).2 =
      if NodeCall.movable g volume oldName (heap.node oldParent) then
        match (heap.inspect oldParent).handle g volume newParentPath with
        | (none, missed) => missed.free oldParent
        | (some newParent, both) => ((both.inspect newParent).free oldParent).free newParent
      else (heap.inspect oldParent).free oldParent := by
  unfold renameFrom NodeCall.movable
  dsimp only [inspect]
  cases (heap.node oldParent).isDirectory with
  | false => rfl
  | true =>
    cases volume.findFileInDir g oldName (heap.node oldParent).startCluster with
    | none => rfl
    | some oldDe =>
      cases isDirectory : oldDe.entry.isDirectory with
      | true => simp [isDirectory]
      | false =>
        simp only [Bool.not_true, Bool.false_eq_true, if_false, Option.any_some, isDirectory, Bool.not_false, Bool.and_self, if_true]
        split <;> rfl

theorem renameFrom_right_iff {first oldParent : UInt64} {oldName newParentPath newName : Name} (returned : heap.returned = [first])
    (inspected : heap.inspected = []) (freed : heap.freed = []) :
    (heap.renameFrom g volume oldName newParentPath newName oldParent).2.Right ↔ oldParent = first ∧
      (NodeCall.movable g volume oldName (heap.node oldParent) = true → (volume.lookup g newParentPath).isSome → heap.Low heap.made) := by
  rw [renameFrom_nodes]
  split
  case isFalse still =>
    rw [Bool.eq_false_iff.mpr still]
    constructor
    · intro right
      have frees : [oldParent] = [first] := by simpa [inspect, free, returned, freed] using right.frees
      exact ⟨List.head_eq_of_cons_eq frees, nofun⟩
    · rintro ⟨rfl, -⟩
      exact ⟨by simp [inspect, free, returned, freed], by simp [inspect, free, returned, inspected]⟩
  case isTrue moves =>
  cases hf : volume.lookup g newParentPath with
  | none =>
    rw [handle_missed hf]
    constructor
    · intro right
      have frees : [oldParent] = [first] := by simpa [inspect, free, returned, freed] using right.frees
      exact ⟨List.head_eq_of_cons_eq frees, fun _ => nofun⟩
    · rintro ⟨rfl, -⟩
      exact ⟨by simp [inspect, free, returned, freed], by simp [inspect, free, returned, inspected]⟩
  | some node =>
    constructor
    · intro right
      have low : heap.Low heap.made := by
        by_contra high
        obtain ⟨answer, handled, ne⟩ := handle_high hf (show ¬ (heap.inspect oldParent).Low _ from high)
        have frees := right.frees
        rw [handled] at frees
        cases answer with
        | none => simp [stored, inspect, free, returned, freed] at frees
        | some id =>
          simp only [stored, inspect, free, returned, freed, List.nil_append, List.cons_append, List.cons.injEq, and_true] at frees
          exact ne (congrArg some frees.2)
      have frees := right.frees
      rw [handle_low hf (show (heap.inspect oldParent).Low _ from low)] at frees
      simp only [stored, inspect, free, returned, freed, List.nil_append, List.cons_append, List.cons.injEq, and_true] at frees
      exact ⟨frees, fun _ _ => low⟩
    · rintro ⟨rfl, low⟩
      rw [handle_low hf (show (heap.inspect oldParent).Low _ from low moves rfl)]
      exact ⟨by simp [stored, inspect, free, returned, freed], by simp [stored, inspect, free, returned, inspected]⟩

theorem adopt_right_iff (created : Volume × Option VNode) : (heap.adopt created).2.Right ↔ heap.Right := by
  obtain ⟨after, made⟩ := created
  cases made with
  | none => exact .rfl
  | some node => exact ⟨fun right => ⟨right.frees, right.inspects⟩, fun right => ⟨right.frees, right.inspects⟩⟩

end NodeHeap

namespace NodeCall

open NodeHeap

variable {g : Geometry} {volume : Volume} {heap : NodeHeap}

theorem createNode_right_iff (path : Name) (fresh : heap.Fresh) : (heap.createNode g volume path).2.Right ↔
    ∀ k ∈ (createNode path).obtains g volume, heap.Low (heap.made + k) := by
  rw [NodeHeap.createNode, obtains]
  split
  case isTrue nothing =>
    have none : path = [] ∨ path = [slash] := by simpa using nothing
    rcases none with rfl | rfl <;> exact iff_of_true fresh.right fun _ mem => nomatch mem
  case isFalse =>
  cases splitLast slash path with
  | none => exact iff_of_true ((adopt_right_iff _).mpr fresh.right) (by simp)
  | some parts =>
    obtain ⟨parentPath, fileName⟩ := parts
    dsimp only
    split
    case isTrue => exact iff_of_true ((adopt_right_iff _).mpr fresh.right) (by simp)
    case isFalse => exact (adopt_right_iff _).trans (onParent_obtained _ _ fresh)

theorem mkDir_right_iff (path : Name) (fresh : heap.Fresh) : (heap.mkDir g volume path).2.Right ↔
    ∀ k ∈ (mkDir path).obtains g volume, heap.Low (heap.made + k) := by
  rw [NodeHeap.mkDir, obtains]
  split
  case isTrue => exact iff_of_true fresh.right (by simp)
  case isFalse absolute =>
  have filled : path.isEmpty = false := by cases path with
    | nil => exact absurd rfl absolute
    | cons => rfl
  cases hf : volume.lookup g path with
  | none =>
    rw [handle_missed hf, filled]
    have fresh' : NodeHeap.Fresh { heap with made := heap.made + 1 } := ⟨fresh.returned, fresh.inspected, fresh.freed⟩
    rw [obtainedParent]
    cases parentAndName path with
    | none => exact iff_of_true fresh'.right (by simp)
    | some parts => exact (onParent_right_iff _ _ fresh').trans (forall_obtained (P := fun k => heap.Low (heap.made + k))).symm
  | some node =>
    rw [Option.isSome_some, if_pos rfl, List.forall_mem_singleton]
    obtain ⟨returned, inspected, freed⟩ := fresh
    constructor
    · intro right
      by_contra high
      obtain ⟨answer, handled, ne⟩ := handle_high hf high
      rw [handled] at right
      cases answer with
      | none =>
        -- the node is lost, and the call goes on as if there were none
        have short : (heap.stored node).freed.length < (heap.stored node).returned.length := by simp [stored, returned, freed]
        dsimp only at right
        split at right
        · exact absurd (congrArg List.length right.frees) (Nat.ne_of_lt short)
        · exact onParent_short _ _ short right
      | some id =>
        have frees := right.frees
        simp only [stored, free, returned, freed, List.nil_append, List.cons.injEq, and_true] at frees
        exact ne (congrArg some frees)
    · intro low
      rw [handle_low hf low]
      exact ⟨by simp [stored, free, returned, freed], by simp [stored, free, inspected]⟩

theorem rename_right_iff (oldPath newPath : Name) (fresh : heap.Fresh) : (heap.rename g volume oldPath newPath).2.Right ↔
    ∀ k ∈ (rename oldPath newPath).obtains g volume, heap.Low (heap.made + k) := by
  rw [NodeHeap.rename, obtains]
  cases parentAndName oldPath with
  | none => exact iff_of_true fresh.right (by simp)
  | some old =>
  cases parentAndName newPath with
  | none => exact iff_of_true fresh.right (by simp)
  | some new =>
  obtain ⟨oldParentPath, oldName⟩ := old
  obtain ⟨newParentPath, newName⟩ := new
  dsimp only
  cases hf : volume.lookup g oldParentPath with
  | none =>
    rw [handle_missed hf]
    exact iff_of_true ⟨fresh.right.frees, fresh.right.inspects⟩ (by simp)
  | some node =>
    have rest : (∀ k ∈ if movable g volume oldName node then obtained g volume 1 newParentPath else [], heap.Low (heap.made + k)) ↔
        (movable g volume oldName node = true → (volume.lookup g newParentPath).isSome → heap.Low (heap.made + 1)) := by
      split
      case isTrue moves => simp [moves, forall_obtained]
      case isFalse still => simp [still]
    rw [List.forall_mem_cons, rest]
    obtain ⟨returned, inspected, freed⟩ := fresh
    have one : (heap.stored node).returned = [(heap.place heap.made).val] := by simp [stored, returned]
    by_cases low : heap.Low heap.made
    · rw [handle_low hf low]
      have there : (heap.stored node).node (heap.place heap.made).val = node := Function.update_self ..
      rw [renameFrom_right_iff one inspected freed, there]
      exact ⟨fun both => ⟨low, both.2⟩, fun both => ⟨rfl, both.2⟩⟩
    · obtain ⟨answer, handled, ne⟩ := handle_high hf low
      rw [handled]
      refine iff_of_false (fun right => ?_) fun both => low both.1
      cases answer with
      | none => simpa [stored, returned, freed] using right.frees
      | some id => exact ne (congrArg some ((renameFrom_right_iff one inspected freed).mp right).1)

theorem run_right_iff (call : NodeCall) (fresh : heap.Fresh) : (call.run g volume heap).Right ↔
    ∀ k ∈ call.obtains g volume, heap.Low (heap.made + k) := by
  have onName : ∀ (path : Name) (call : Nat → Name → Volume × Bool), (match parentAndName path with
      | none => ((volume, false), heap)
      | some (parentPath, name) => heap.onParent g volume parentPath false fun parent => call parent name).2.Right ↔
      ∀ k ∈ obtainedParent g volume 0 path, heap.Low (heap.made + k) := by
    intro path call
    rw [obtainedParent]
    cases parentAndName path with
    | none => exact iff_of_true fresh.right (by simp)
    | some parts => exact onParent_obtained _ _ fresh
  cases call with
  | stat path =>
    change (heap.stat g volume path).2.Right ↔ _
    rw [stat_nodes]
    exact onParent_obtained _ _ fresh
  | createNode path => exact createNode_right_iff path fresh
  | delete path => exact onName path fun parent name => volume.deleteIn g parent name
  | rename oldPath newPath => exact rename_right_iff oldPath newPath fresh
  | mkDir path => exact mkDir_right_iff path fresh
  | rmDir path => exact onName path fun parent name => volume.rmDirIn g parent name

end NodeCall

open NodeHeap in
/-- Every call works with the nodes that `Lookup` returned to it exactly when the allocator puts these below 2^32. -/
theorem node_handles_survive_iff (g : Geometry) (volume : Volume) (call : NodeCall)
    (place : Nat → { address : UInt64 // address ≠ 0 }) (node : UInt64 → VNode) (made : Nat) :
    Survives g volume call (start place node made) ↔ ∀ k ∈ call.obtains g volume, (place (made + k)).val.toNat < 2 ^ 32 := by
  have fresh : (start place node made).Fresh := ⟨rfl, rfl, rfl⟩
  refine ⟨fun survives => (call.run_right_iff fresh).mp survives.right, fun low => ⟨(call.run_right_iff fresh).mpr low, ?_⟩⟩
  rintro path rfl
  cases hf : volume.lookup g path with
  | none =>
    rw [stat, handle_missed hf, lookup, hf]
    rfl
  | some found =>
    have lowest : (start place node made).Low made :=
      (forall_obtained (P := fun k => (place (made + k)).val.toNat < 2 ^ 32)).mp low (hf ▸ rfl)
    rw [stat, handle_low hf lowest, lookup_found hf]
    rw [populateInode, if_neg (show ((start place node made).place (start place node made).made).val ≠ 0 from (place made).property)]
    rfl

/-- `Stat("/")` with its node in the kernel's heap reports what it finds at `0x80400020`. -/
theorem stat_narrowed : ¬ Survives smallGeometry ⟨fun _ => 0, 2, fun _ _ => 0⟩ (.stat [slash])
    (.start (fun _ => ⟨0xFFFFFFFF80400020, by decide⟩) (fun _ => ⟨9, 7, false, ⟨0, 0⟩⟩) 0) := by
  intro survives
  have reported := survives.reports [slash] rfl
  exact absurd reported (by decide)

end RosKernel.Fat32
