import RosKernel.Fat32.ShortNames
import RosKernel.Library.Runs
import RosKernel.Fat32.Handles

/-! Runs of the calls on the names of one directory, by path.

A call is on the directory if the parent that its path leads to is the directory; one whose path
leads nowhere does nothing. The calls keep the nodes of `Lookup` in 32 bits, and so do the runs
here; with nodes below 2^32 a call does to the volume what it does with the nodes themselves.
-/

set_option autoImplicit false

namespace RosKernel.Fat32

open Library

variable {g : Geometry} {volume : Volume} {dir : Nat} {clusters : List Nat}

inductive NameCall where
  | createNode (path : Name)
  | mkDir (path : Name)
  | rename (oldPath newPath : Name)
  | delete (path : Name)
  | rmDir (path : Name)

namespace Volume

/-- The parent that a path leads to, and the name in it. -/
def parentOf (g : Geometry) (volume : Volume) (path : Name) : Option (Nat × Name) :=
  (parentAndName path).bind fun (parentPath, name) => (volume.lookupDirectory g parentPath).map fun parent => (parent, name)

/-- No two entries of a directory have one short name. -/
def ShortNamesDistinct (g : Geometry) (volume : Volume) (dir : Nat) : Prop :=
  ∀ first ∈ volume.placesOf g dir, ∀ second ∈ volume.placesOf g dir, first ≠ second →
    (volume.slot first).isEntry = true → (volume.slot second).isEntry = true → (volume.slot first).sfn ≠ (volume.slot second).sfn

theorem onParent_keeps (path : Name) (call : Nat → Name → Volume × Bool) (keeps : Volume → Prop) (nowhere : keeps volume)
    (there : ∀ parent name, volume.parentOf g path = some (parent, name) → keeps (call parent name).1) :
    keeps (volume.onParent g path call).1 := by
  unfold onParent
  split
  · exact nowhere
  · rename_i parentPath name split_
    split
    · exact nowhere
    · rename_i parent lookup
      exact there parent name (by simp [parentOf, split_, lookup])

end Volume

namespace NodeHeap

variable {heap : NodeHeap} {path : Name}

theorem onParent_volume {α : Type} (failed : α) (call : Nat → Volume × α)
    (low : (volume.lookup g path).isSome → heap.Low heap.made) :
    (heap.onParent g volume path failed call).1 = (volume.lookupDirectory g path).elim (volume, failed) call := by
  rw [onParent, Volume.lookupDirectory]
  cases hf : volume.lookup g path with
  | none => rw [handle_missed hf, Option.elim_none]
  | some node =>
    rw [handle_low hf (low (by rw [hf]; rfl))]
    have there : (heap.stored node).node (heap.place heap.made).val = node := Function.update_self ..
    simp only [there]
    cases node.isDirectory <;> rfl

theorem adopt_volume (created : Volume × Option VNode) : (heap.adopt created).1.1 = created.1 := by
  obtain ⟨after, made⟩ := created
  cases made <;> rfl

theorem createNode_volume (low : ∀ k ∈ (NodeCall.createNode path).obtains g volume, heap.Low (heap.made + k)) :
    (heap.createNode g volume path).1.1 = (volume.createNode g path).1 := by
  rw [NodeCall.obtains] at low
  rw [createNode, Volume.createNode]
  split
  case isTrue => rfl
  case isFalse named =>
  rw [Volume.nodeParent]
  cases hf : splitLast slash path with
  | none =>
    have filled : path.isEmpty = false := by simpa using fun empty => named (by simp [empty])
    rw [adopt_volume]
    simp [filled]
  | some parts =>
    obtain ⟨parentPath, fileName⟩ := parts
    rw [hf] at low
    dsimp only at low ⊢
    split
    case isTrue => rw [adopt_volume]
    case isFalse deeper =>
      rw [if_neg deeper] at low
      rw [adopt_volume, onParent_volume none _ ((forall_obtained (P := fun k => heap.Low (heap.made + k))).mp low)]
      cases volume.lookupDirectory g parentPath <;> rfl

theorem forall_obtainedParent {number : Nat} {P : Nat → Prop} : (∀ k ∈ NodeCall.obtainedParent g volume number path, P k) ↔
    ∀ parts, parentAndName path = some parts → (volume.lookup g parts.1).isSome → P number := by
  rw [NodeCall.obtainedParent]
  cases parentAndName path with
  | none => simp
  | some parts => simp [forall_obtained]

theorem onName_volume (call : Nat → Name → Volume × Bool)
    (low : ∀ parts, parentAndName path = some parts → (volume.lookup g parts.1).isSome → heap.Low heap.made) :
    (match parentAndName path with
      | none => ((volume, false), heap)
      | some (parentPath, name) => heap.onParent g volume parentPath false fun parent => call parent name).1 =
      volume.onParent g path call := by
  rw [Volume.onParent]
  cases split_ : parentAndName path with
  | none => rfl
  | some parts =>
    refine (onParent_volume false _ (low parts split_)).trans ?_
    obtain ⟨parentPath, name⟩ := parts
    dsimp only
    cases volume.lookupDirectory g parentPath <;> rfl

theorem mkDir_volume (low : ∀ k ∈ (NodeCall.mkDir path).obtains g volume, heap.Low (heap.made + k)) :
    (heap.mkDir g volume path).1 = volume.mkDir g path := by
  rw [NodeCall.obtains] at low
  rw [mkDir, Volume.mkDir]
  split
  case isTrue => rfl
  case isFalse absolute =>
  have filled : path.isEmpty = false := by
    cases path with
    | nil => exact absurd rfl absolute
    | cons => rfl
  rw [if_neg absolute] at low
  cases hf : volume.lookup g path with
  | none =>
    rw [handle_missed hf, filled]
    rw [hf] at low
    have parents := (forall_obtainedParent (P := fun k => heap.Low (heap.made + k))).mp low
    exact onName_volume (fun parent name => volume.mkDirIn g parent name) parents
  | some node =>
    rw [hf, Option.isSome_some, if_pos rfl, List.forall_mem_singleton] at low
    rw [handle_low hf low]
    rfl

/-- The two parents are one directory, so it does not matter if the second node was put where the first is. -/
theorem rename_volume {oldPath newPath : Name} {dir : Nat}
    (low : ∀ k ∈ (NodeCall.rename oldPath newPath).obtains g volume, heap.Low (heap.made + k))
    (old : ∀ parent name, volume.parentOf g oldPath = some (parent, name) → parent = dir)
    (new : ∀ parent name, volume.parentOf g newPath = some (parent, name) → parent = dir) :
    (heap.rename g volume oldPath newPath).1 = volume.rename g oldPath newPath := by
  rw [NodeCall.obtains] at low
  rw [rename, Volume.rename]
  rw [Volume.parentOf] at old new
  cases newSplit : parentAndName newPath with
  | none => cases parentAndName oldPath <;> rfl
  | some newParts =>
  obtain ⟨newParentPath, newName⟩ := newParts
  dsimp only
  rw [Volume.onParent]
  cases oldSplit : parentAndName oldPath with
  | none => rfl
  | some oldParts =>
  obtain ⟨oldParentPath, oldName⟩ := oldParts
  rw [oldSplit, newSplit] at low
  rw [oldSplit] at old
  rw [newSplit] at new
  dsimp only [Option.bind_some] at low old new ⊢
  rw [Volume.lookupDirectory] at old ⊢
  cases hf : volume.lookup g oldParentPath with
  | none => rw [handle_missed hf]
  | some node =>
    rw [hf] at low old
    dsimp only at low old ⊢
    rw [List.forall_mem_cons] at low
    rw [handle_low hf low.1]
    have there : (heap.stored node).node (heap.place heap.made).val = node := Function.update_self ..
    simp only [renameFrom, inspect, there]
    cases isDirectory : node.isDirectory with
    | false => rfl
    | true =>
      rw [isDirectory] at old
      obtain rfl := old _ oldName rfl
      simp only [Bool.not_true, Bool.false_eq_true, if_false, if_true]
      cases inOld : volume.findFileInDir g oldName node.startCluster with
      | none => cases volume.lookupDirectory g newParentPath <;> simp [Volume.renameIn, inOld]
      | some oldDe =>
      cases directory : oldDe.entry.isDirectory with
      | true => cases volume.lookupDirectory g newParentPath <;> simp [Volume.renameIn, inOld, directory]
      | false =>
      have movable : NodeCall.movable g volume oldName node = true := by simp [NodeCall.movable, isDirectory, inOld, directory]
      rw [movable, if_pos rfl] at low
      have snd := (forall_obtained (P := fun k => heap.Low (heap.made + k))).mp low.2
      simp only [directory, Bool.false_eq_true, if_false]
      rw [Volume.lookupDirectory] at new ⊢
      cases hn : volume.lookup g newParentPath with
      | none => rw [handle_missed hn]
      | some newNode =>
        rw [handle_low hn (snd (by rw [hn]; rfl))]
        have last : ∀ found : NodeHeap, (found.stored newNode).node (found.place found.made).val = newNode :=
          fun found => Function.update_self ..
        simp only [last]
        rw [hn] at new
        cases newDirectory : newNode.isDirectory with
        | false => rfl
        | true =>
          simp only [newDirectory] at new
          have same : newNode.startCluster = node.startCluster := new _ newName rfl
          have kept : ∀ found : NodeHeap, found.node = (heap.stored node).node →
              ((found.stored newNode).node (heap.place heap.made).val).startCluster = node.startCluster := by
            intro found before
            change (Function.update found.node _ newNode _).startCluster = _
            rw [Function.update_apply, before, there]
            split
            · exact same
            · rfl
          simp only [Bool.not_true, Bool.false_eq_true, if_false, if_true, Volume.renameIn, inOld, directory,
            kept, same]
          all_goals rfl

end NodeHeap

namespace NameCall

def run (g : Geometry) (volume : Volume) : NameCall → Volume
  | createNode path => (volume.createNode g path).1
  | mkDir path => (volume.mkDir g path).1
  | rename oldPath newPath => (volume.rename g oldPath newPath).1
  | delete path => (volume.delete g path).1
  | rmDir path => (volume.rmDir g path).1

def nodeCall : NameCall → NodeCall
  | createNode path => .createNode path
  | mkDir path => .mkDir path
  | rename oldPath newPath => .rename oldPath newPath
  | delete path => .delete path
  | rmDir path => .rmDir path

/-- What a call that keeps its nodes in 32 bits does to the volume. -/
def runNodes (g : Geometry) (volume : Volume) (heap : NodeHeap) : NameCall → Volume
  | createNode path => (heap.createNode g volume path).1.1
  | mkDir path => (heap.mkDir g volume path).1.1
  | rename oldPath newPath => (heap.rename g volume oldPath newPath).1.1
  | delete path => (heap.delete g volume path).1.1
  | rmDir path => (heap.rmDir g volume path).1.1

/-- The nodes that `Lookup` returns to the call are below 2^32. -/
def HasLowNodes (g : Geometry) (volume : Volume) (heap : NodeHeap) (call : NameCall) : Prop :=
  ∀ k ∈ call.nodeCall.obtains g volume, heap.Low (heap.made + k)

/-- A call on names in a directory and in no other. -/
def On (g : Geometry) (dir : Nat) (volume : Volume) : NameCall → Prop
  | createNode path => ∀ parent name, volume.nodeParent g path = some (parent, name) → parent = dir
  | mkDir path | delete path | rmDir path => ∀ parent name, volume.parentOf g path = some (parent, name) → parent = dir
  | rename oldPath newPath => (∀ parent name, volume.parentOf g oldPath = some (parent, name) → parent = dir) ∧
      ∀ parent name, volume.parentOf g newPath = some (parent, name) → parent = dir

/-- The short name of an entry that is to be made is no other entry's, and no entry `.` or `..` is removed. -/
def Distinguishes (g : Geometry) (dir : Nat) (volume : Volume) : NameCall → Prop
  | createNode path => ∀ name, volume.nodeParent g path = some (dir, name) → name ≠ [] → volume.FreshName g dir name none
  | mkDir path => volume.lookup g path = none → ∀ name, volume.parentOf g path = some (dir, name) → volume.FreshName g dir name none
  | rename oldPath newPath => ∀ oldName newName oldDe, volume.parentOf g oldPath = some (dir, oldName) →
      volume.parentOf g newPath = some (dir, newName) → volume.findFileInDir g oldName dir = some oldDe →
      oldDe.entry.isDirectory = false → volume.findFileInDir g newName dir = none →
      volume.FreshName g dir newName (some oldDe.address)
  | delete _ => True
  | rmDir path => ∀ name de, volume.parentOf g path = some (dir, name) → volume.findFileInDir g name dir = some de →
      de.entry.isDot = false

theorem runNodes_eq {call : NameCall} {heap : NodeHeap} (on : call.On g dir volume) (low : call.HasLowNodes g volume heap) :
    call.runNodes g volume heap = call.run g volume := by
  cases call with
  | createNode path => exact NodeHeap.createNode_volume low
  | mkDir path => exact congrArg Prod.fst (NodeHeap.mkDir_volume low)
  | rename oldPath newPath => exact congrArg Prod.fst (NodeHeap.rename_volume low on.1 on.2)
  | delete path =>
    have parents := (NodeHeap.forall_obtainedParent (P := fun k => heap.Low (heap.made + k))).mp low
    exact congrArg Prod.fst (NodeHeap.onName_volume (fun parent name => volume.deleteIn g parent name) parents)
  | rmDir path =>
    have parents := (NodeHeap.forall_obtainedParent (P := fun k => heap.Low (heap.made + k))).mp low
    exact congrArg Prod.fst (NodeHeap.onName_volume (fun parent name => volume.rmDirIn g parent name) parents)

theorem run_tidy {call : NameCall} (tidy : volume.AllTidy g dir clusters) (on : call.On g dir volume)
    (distinguishes : call.Distinguishes g dir volume) : ∃ clusters, (call.run g volume).AllTidy g dir clusters := by
  let keeps : Volume → Prop := fun state => ∃ clusters, state.AllTidy g dir clusters
  have unchanged : keeps volume := ⟨clusters, tidy⟩
  cases call with
  | createNode path =>
    change keeps (volume.createNode g path).1
    unfold Volume.createNode
    split
    · exact unchanged
    · split
      · exact unchanged
      · rename_i parent name hf
        obtain rfl := on parent name hf
        split
        · exact unchanged
        · rename_i named
          exact Volume.createNodeIn_tidy tidy (distinguishes name hf fun empty => named (by rw [empty]; rfl))
  | mkDir path =>
    change keeps (volume.mkDir g path).1
    unfold Volume.mkDir
    split
    · exact unchanged
    · split
      · exact unchanged
      · rename_i absent
        apply Volume.onParent_keeps path _ keeps unchanged
        intro parent name hf
        obtain rfl := on parent name hf
        exact Volume.mkDirIn_tidy tidy (distinguishes (Option.not_isSome_iff_eq_none.mp absent) name hf)
  | rename oldPath newPath =>
    change keeps (volume.rename g oldPath newPath).1
    unfold Volume.rename
    split
    · exact unchanged
    · rename_i newParentPath newName newSplit
      apply Volume.onParent_keeps oldPath _ keeps unchanged
      intro oldParent oldName hf
      obtain rfl := on.1 oldParent oldName hf
      split
      · exact unchanged
      · rename_i newParent newLookup
        have newFound : volume.parentOf g newPath = some (newParent, newName) := by
          simp [Volume.parentOf, newSplit, newLookup]
        obtain rfl := on.2 newParent newName newFound
        exact Volume.renameIn_tidy tidy fun oldDe => distinguishes oldName newName oldDe hf newFound
  | delete path =>
    apply Volume.onParent_keeps path _ keeps unchanged
    intro parent name hf
    obtain rfl := on parent name hf
    exact ⟨clusters, Volume.deleteIn_tidy tidy⟩
  | rmDir path =>
    apply Volume.onParent_keeps path _ keeps unchanged
    intro parent name hf
    obtain rfl := on parent name hf
    exact ⟨clusters, Volume.rmDirIn_tidy tidy fun de => distinguishes name de hf⟩

end NameCall

namespace Volume

/-- What a run of calls on a directory reaches, with any memory for the nodes of each, as long as these are below 2^32
and each new short name is not in use. -/
def ReachedByNames (g : Geometry) (dir : Nat) : Volume → Volume → Prop :=
  Reaches (fun (state : Volume) (asked : NameCall × NodeHeap) => some (asked.1.runNodes g state asked.2)) fun state asked =>
    asked.1.On g dir state ∧ asked.1.HasLowNodes g state asked.2 ∧ asked.1.Distinguishes g dir state

theorem AllTidy.reached {after : Volume} (tidy : volume.AllTidy g dir clusters) (hr : ReachedByNames g dir volume after) :
    ∃ clusters, after.AllTidy g dir clusters := by
  apply Reaches.invariant hr fun state => ∃ clusters, state.AllTidy g dir clusters
  · exact ⟨clusters, tidy⟩
  · rintro state ⟨call, heap⟩ after ⟨clusters, tidy⟩ ⟨on, low, distinguishes⟩ ran
    cases ran
    rw [NameCall.runNodes_eq on low]
    exact NameCall.run_tidy tidy on distinguishes

theorem shortNames_distinct {after : Volume} (tidy : volume.AllTidy g dir clusters) (reached : ReachedByNames g dir volume after) :
    after.ShortNamesDistinct g dir := by
  obtain ⟨others, kept⟩ := tidy.reached reached
  intro first isFirst snd isSecond dist
  rw [placesOf_eq kept.holds kept.nonzero] at isFirst isSecond
  exact kept.names first isFirst snd isSecond dist trivial trivial

theorem lettered_tidy : (lettered 0).AllTidy smallGeometry 2 [2] := by
  have empty : ∀ addr ∈ directoryAddresses smallGeometry [2], ((lettered 0).slot addr).isEntry = false := by decide +kernel
  have none : ∀ addr ∈ directoryAddresses smallGeometry [2], ((lettered 0).slot addr).isEntry = true → False :=
    fun addr mem isEntry => nomatch (empty addr mem).symm.trans isEntry
  refine ⟨⟨⟨rfl, rfl⟩, by decide⟩, by decide, ?_, ?_, ?_⟩
  · intro addr mem _ owns
    exact (none addr mem (owns_isEntry owns)).elim
  · intro first mem _ _ _ _ _ owns
    exact (none first mem (owns_isEntry owns)).elim
  · grind

def longPath (digit : UInt8) : Name := [0x2F, 0x6C, 0x6F, 0x6E, 0x67, 0x6E, 0x61, 0x6D, 0x65, digit, 0x2E, 0x74, 0x78, 0x74]

/-- Nodes at one address. -/
def nodesAt4096 : NodeHeap := .start (fun _ => ⟨0x1000, by decide⟩) (fun _ => ⟨0, 0, false, ⟨0, 0⟩⟩) 0

theorem createNode_on {path name : Name} (resolved : volume.nodeParent g path = some (dir, name)) :
    (NameCall.createNode path).On g dir volume := by
  intro parent other hf
  rw [resolved] at hf
  exact (Prod.mk.inj (Option.some.inj hf)).1.symm

theorem createNode_low {path : Name} {heap : NodeHeap} (atRoot : ((splitLast slash path).all fun parts => parts.1.isEmpty) = true) :
    (NameCall.createNode path).HasLowNodes g volume heap := by
  intro k mem
  rw [NameCall.nodeCall, NodeCall.obtains] at mem
  cases hf : splitLast slash path with
  | none =>
    rw [hf] at mem
    cases mem
  | some parts =>
    rw [hf, Option.all_some] at atRoot
    rw [hf] at mem
    dsimp only at mem
    rw [if_pos atRoot] at mem
    cases mem

theorem createNode_distinguishes {path name : Name} (resolved : volume.nodeParent g path = some (dir, name))
    (fresh : ∀ address ∈ volume.placesOf g dir, (volume.slot address).isEntry = true → (volume.slot address).sfn ≠ makeSFNFromName name) :
    (NameCall.createNode path).Distinguishes g dir volume := by
  intro other hf _ address mem _ isEntry
  rw [resolved] at hf
  cases hf
  exact fresh address mem isEntry

def shortPath : Name := [0x2F, 0x62, 0x2E, 0x74, 0x78, 0x74]

/-- Two files in an empty directory, with the short names `LONGNA~1TXT` and `B       TXT`. -/
theorem shortNames_distinct_lettered : ((NameCall.createNode shortPath).runNodes smallGeometry
    ((NameCall.createNode (longPath 0x31)).runNodes smallGeometry (lettered 0) nodesAt4096) nodesAt4096).ShortNamesDistinct smallGeometry 2 := by
  apply shortNames_distinct lettered_tidy
  have firstName : (lettered 0).nodeParent smallGeometry (longPath 0x31) = some (2, (longPath 0x31).tail) := by decide +kernel
  have one : ReachedByNames smallGeometry 2 (lettered 0) _ :=
    Reaches.next (.createNode (longPath 0x31), nodesAt4096) .start
      ⟨createNode_on firstName, createNode_low (by decide), createNode_distinguishes firstName (by decide +kernel)⟩ rfl
  have sndName : ((NameCall.createNode (longPath 0x31)).runNodes smallGeometry (lettered 0) nodesAt4096).nodeParent smallGeometry shortPath =
      some (2, shortPath.tail) := by decide +kernel
  exact one.next (.createNode shortPath, nodesAt4096)
    ⟨createNode_on sndName, createNode_low (by decide), createNode_distinguishes sndName (by decide +kernel)⟩ rfl

/-- Two names that agree in six letters and in their extension. -/
theorem shortNames_clash : (lettered 0).AllTidy smallGeometry 2 [2] ∧
    ¬ ((NameCall.createNode (longPath 0x32)).runNodes smallGeometry
      ((NameCall.createNode (longPath 0x31)).runNodes smallGeometry (lettered 0) nodesAt4096) nodesAt4096).ShortNamesDistinct smallGeometry 2 := by
  refine ⟨lettered_tidy, fun dist => ?_⟩
  have clash := dist ⟨100, 32⟩ (by decide +kernel) ⟨100, 96⟩ (by decide +kernel) (by decide) (by decide +kernel) (by decide +kernel)
  exact clash (by decide +kernel)

end Volume

end RosKernel.Fat32
