import RosKernel.Filesys.Teardown

/-! What holds of the files, inodes, pipe buffers and regions between two calls. -/

set_option autoImplicit false

namespace RosKernel.Filesys.FileWorld

open Library Process Option
open Function (update update_apply update_of_ne update_self)

def opened (world : FileWorld) (ptr : Nat) : Finset FileId := (Finset.range world.calls.nextFile).filter fun id =>
  world.calls.live id = true ∧ (world.calls.files id).type ≠ .shm ∧ world.nodeOf id = ptr

def mapped (world : FileWorld) (i : Nat) : Finset FileId := (Finset.range world.calls.nextFile).filter fun id =>
  world.calls.live id = true ∧ (world.calls.files id).type = .shm ∧ (world.calls.files id).privateData = i

def bufferKey (world : FileWorld) (buf : Nat) : Option Nat := if world.buffers buf then some buf else none

/-- The invariant, when the count of an inode is ahead of its files by `ahead`. -/
structure Sound (world : FileWorld) (ahead : Nat → Int) : Prop where
  whole : world.faulted = false
  torn : ∀ id, id < world.calls.nextFile → world.closes id = (if world.calls.live id then 0 else 1) ∧
    world.deletes id = if world.calls.live id then 0 else 1
  beyond : ∀ id, world.calls.nextFile ≤ id → world.calls.live id = false ∧ world.closes id = 0 ∧ world.deletes id = 0
  noded : ∀ id, world.calls.live id = true → (world.calls.files id).type ≠ .shm →
    ∃ node owner, world.nodes (world.nodeOf id) = some node ∧ node.owner = some owner
  counts : ∀ ptr node owner, world.nodes ptr = some node → node.owner = some owner →
    node.refCount = (world.opened ptr).card + ahead ptr
  left : ∀ id, id < world.calls.nextFile → (world.nodes (world.nodeOf id)).isSome →
    (∃ other, world.calls.live other = true ∧ world.nodeOf other = world.nodeOf id) ∨ 0 < ahead (world.nodeOf id)
  shm : ∀ id, world.calls.live id = true → (world.calls.files id).type = .shm →
    (world.calls.regions (world.calls.files id).privateData).used = true ∧
    world.nodeOf id = world.regionNode (world.calls.files id).privateData
  regions : ∀ i, (world.calls.regions i).used = true → (world.calls.regions i).refCount = (world.mapped i).card ∧
    (world.calls.regions i).refCount < 2 ^ 32 ∧ ∃ node, world.nodes (world.regionNode i) = some node ∧ node.owner = none
  regionsApart : ∀ i j, (world.calls.regions i).used = true → (world.calls.regions j).used = true →
    world.regionNode i = world.regionNode j → i = j
  piped : ∀ ptr node, world.nodes ptr = some node → node.owner = some .pipe →
    world.buffers node.inodeId = true ∧ world.bufferOf ptr = some node.inodeId
  pipesApart : ∀ a b node other, world.nodes a = some node → world.nodes b = some other → node.owner = some .pipe →
    other.owner = some .pipe → node.inodeId = other.inodeId → a = b
  buffered : ∀ ptr buf, world.bufferOf ptr = some buf → buf < world.nextBuffer ∧ (world.buffers buf = true →
    ∃ node, world.nodes ptr = some node ∧ node.owner = some .pipe)
  notSocket : ∀ ptr node, world.nodes ptr = some node → node.owner ≠ some .socket
  cached : KeyedSlots.Sparse world.key world.cache
  cacheOwned : ∀ ptr node, some ptr ∈ world.cache → world.nodes ptr = some node → node.owner ≠ none
  entries : KeyedSlots.Sparse world.bufferKey world.named
  nodeBound : ∀ ptr, (world.nodes ptr).isSome → ptr < world.nextNode
  bufferBound : ∀ buf, world.buffers buf = true → buf < world.nextBuffer
  bufferOfBound : ∀ ptr, (world.bufferOf ptr).isSome → ptr < world.nextNode
  nodeOfBound : ∀ id, id < world.calls.nextFile → world.nodeOf id < world.nextNode

variable {world : FileWorld} {ahead : Nat → Int} {id : FileId} {ptr : Nat} {node : FileNode}

theorem mem_opened {other : FileId} : other ∈ world.opened ptr ↔ other < world.calls.nextFile ∧ world.calls.live other = true ∧
    (world.calls.files other).type ≠ .shm ∧ world.nodeOf other = ptr := by
  simp [opened]

theorem mem_mapped {other : FileId} {i : Nat} : other ∈ world.mapped i ↔ other < world.calls.nextFile ∧ world.calls.live other = true ∧
    (world.calls.files other).type = .shm ∧ (world.calls.files other).privateData = i := by
  simp [mapped]

theorem Sound.lt_of_live (sound : world.Sound ahead) (live : world.calls.live id = true) : id < world.calls.nextFile := by
  by_contra beyond
  exact nomatch (sound.beyond id (Nat.le_of_not_lt beyond)).1.symm.trans live

theorem Sound.even (sound : world.Sound ahead) (zero : ∀ ptr, ahead ptr = 0) : world.Sound fun _ => 0 := funext zero ▸ sound

theorem Sound.inode_of_live (sound : world.Sound ahead) (live : world.calls.live id = true) : (world.nodes (world.nodeOf id)).isSome := by
  by_cases shared : (world.calls.files id).type = .shm
  · obtain ⟨used, eq⟩ := sound.shm id live shared
    obtain ⟨_, _, node, hf, _⟩ := sound.regions _ used
    rw [eq, hf]
    rfl
  · obtain ⟨node, _, hf, _⟩ := sound.noded id live shared
    rw [hf]
    rfl

/-! ## Uses of what is there -/

theorem check_true {ok : Bool} (fine : ok = true) : world.check ok = world := by
  rw [fine]
  exact congrArg (fun faulted => { world with faulted }) (Bool.or_false _)

theorem useFile_live (live : world.calls.live id = true) : world.useFile id = world := check_true live

theorem Sound.scanned (sound : world.Sound ahead) (k : Option NodeOwner × Nat) :
    ((world.cache.takeWhile fun slot => !KeyedSlots.holds world.key k slot).all fun slot =>
      slot.all fun ptr => (world.nodes ptr).isSome) = true := by
  refine List.all_eq_true.mpr fun slot mem => ?_
  cases slot with
  | none => rfl
  | some ptr =>
    have keyed : ((world.nodes ptr).map FileNode.key).isSome := sound.cached.held ptr ((List.takeWhile_sublist _).subset mem)
    simpa using keyed

/-! ## A file goes -/

/-- The file is closed and deleted, and its inode still counts it. -/
def gone (world : FileWorld) (id : FileId) : FileWorld := { world with
  calls := { world.calls.addRef id (-1) with live := update world.calls.live id false }
  closes := update world.closes id (world.closes id + 1)
  deletes := update world.deletes id (world.deletes id + 1) }

theorem addRef_type (change : Int) (other : FileId) : ((world.calls.addRef id change).files other).type = (world.calls.files other).type := by
  by_cases eq : other = id
  · rw [eq]
    simp [FileState.addRef]
  · rw [addRef_files_ne _ eq]

theorem addRef_privateData (change : Int) (other : FileId) :
    ((world.calls.addRef id change).files other).privateData = (world.calls.files other).privateData := by
  by_cases eq : other = id
  · rw [eq]
    simp [FileState.addRef]
  · rw [addRef_files_ne _ eq]

theorem opened_recounted (change : Int) (ptr : Nat) :
    opened { world with calls := world.calls.addRef id change } ptr = world.opened ptr := by
  ext other
  rw [mem_opened, mem_opened, addRef_type]
  exact .rfl

theorem mapped_recounted (change : Int) (i : Nat) :
    mapped { world with calls := world.calls.addRef id change } i = world.mapped i := by
  ext other
  rw [mem_mapped, mem_mapped, addRef_type, addRef_privateData]
  exact .rfl

theorem Sound.recounted (sound : world.Sound ahead) (change : Int) : Sound { world with calls := world.calls.addRef id change } ahead :=
  { sound with
    noded := fun other live plain => sound.noded other live (addRef_type change other ▸ plain)
    counts := fun ptr node owner hf own => by
      rw [opened_recounted]
      exact sound.counts ptr node owner hf own
    shm := fun other live shared => by
      rw [addRef_privateData]
      exact sound.shm other live (addRef_type change other ▸ shared)
    regions := fun i used => by
      rw [mapped_recounted]
      exact sound.regions i used }

theorem opened_gone (ptr : Nat) : (world.gone id).opened ptr = (world.opened ptr).erase id := by
  ext other
  rw [Finset.mem_erase, mem_opened, mem_opened]
  change _ ∧ update world.calls.live id false other = true ∧ ((world.calls.addRef id (-1)).files other).type ≠ _ ∧ _ ↔ _
  rw [addRef_type]
  by_cases eq : other = id
  · simp [eq]
  · simp only [ne_eq, eq, not_false_eq_true, update_of_ne, true_and]
    exact .rfl

theorem mapped_gone (i : Nat) : (world.gone id).mapped i = (world.mapped i).erase id := by
  ext other
  rw [Finset.mem_erase, mem_mapped, mem_mapped]
  change _ ∧ update world.calls.live id false other = true ∧ ((world.calls.addRef id (-1)).files other).type = _ ∧
    ((world.calls.addRef id (-1)).files other).privateData = _ ↔ _
  rw [addRef_type, addRef_privateData]
  by_cases eq : other = id
  · simp [eq]
  · simp only [ne_eq, eq, not_false_eq_true, update_of_ne, true_and]
    exact .rfl

theorem live_gone {other : FileId} (there : (world.gone id).calls.live other = true) : other ≠ id ∧ world.calls.live other = true := by
  have ne : other ≠ id := by
    rintro rfl
    exact nomatch (update_self ..).symm.trans there
  exact ⟨ne, (update_of_ne ne ..).symm.trans there⟩

theorem Sound.torn_gone (sound : world.Sound ahead) (live : world.calls.live id = true) {other : FileId}
    (bound : other < world.calls.nextFile) : (world.gone id).closes other = (if (world.gone id).calls.live other then 0 else 1) ∧
      (world.gone id).deletes other = if (world.gone id).calls.live other then 0 else 1 := by
  by_cases eq : other = id
  · obtain ⟨closed, deleted⟩ := sound.torn id (sound.lt_of_live live)
    rw [if_pos live] at closed deleted
    rw [eq]
    simp [FileWorld.gone, closed, deleted]
  · simpa [FileWorld.gone, eq] using sound.torn other bound

theorem Sound.beyond_gone (sound : world.Sound ahead) (live : world.calls.live id = true) {other : FileId}
    (beyond : world.calls.nextFile ≤ other) :
    (world.gone id).calls.live other = false ∧ (world.gone id).closes other = 0 ∧ (world.gone id).deletes other = 0 := by
  have ne : other ≠ id := by
    rintro rfl
    exact absurd (sound.lt_of_live live) (Nat.not_lt_of_le beyond)
  simpa [FileWorld.gone, ne] using sound.beyond other beyond

/-- Without a file of its own, the inode is left with a count that is ahead by one. -/
theorem Sound.gone (sound : world.Sound fun _ => 0) (live : world.calls.live id = true)
    (plain : (world.calls.files id).type ≠ .shm) :
    (world.gone id).Sound (update (fun _ => 0) (world.nodeOf id) 1) := by
  have below := sound.lt_of_live live
  refine { sound with torn := fun other => sound.torn_gone live, beyond := fun other => sound.beyond_gone live,
                      noded := fun other there plain => ?_, counts := fun ptr node owner hf own => ?_,
                      left := fun other bound there => ?_, shm := fun other there shared => ?_, regions := fun i used => ?_ }
  · exact sound.noded other (live_gone there).2 (addRef_type (-1) other ▸ plain)
  · have count := sound.counts ptr node owner hf own
    rw [opened_gone, count]
    by_cases eq : ptr = world.nodeOf id
    · rw [eq, update_self, ← Finset.card_erase_add_one (mem_opened.mpr ⟨below, live, plain, rfl⟩)]
      push_cast
      omega
    · have out : id ∉ world.opened ptr := fun mem => eq (mem_opened.mp mem).2.2.2.symm
      rw [update_of_ne eq, Finset.erase_eq_of_notMem out]
  · rcases sound.left other bound there with ⟨now, theirs, node⟩ | ahead
    · by_cases eq : now = id
      · rw [eq] at node
        refine .inr ?_
        change (0 : Int) < update (fun _ => (0 : Int)) (world.nodeOf id) 1 (world.nodeOf other)
        rw [← node, update_self]
        decide
      · exact .inl ⟨now, (update_of_ne eq ..).trans theirs, node⟩
    · exact absurd ahead (Int.lt_irrefl 0)
  · have old := sound.shm other (live_gone there).2 (addRef_type (-1) other ▸ shared)
    change (world.calls.regions ((world.calls.addRef id (-1)).files other).privateData).used = true ∧
      world.nodeOf other = world.regionNode ((world.calls.addRef id (-1)).files other).privateData
    rw [addRef_privateData]
    exact old
  · have out : id ∉ world.mapped i := fun mem => plain (mem_mapped.mp mem).2.2.1
    rw [mapped_gone, Finset.erase_eq_of_notMem out]
    exact sound.regions i used

/-! ## Counting an inode -/

theorem nodes_addRef (change : Int) (other : Nat) : (world.addRef ptr change).nodes other =
    (world.nodes other).map fun node => { node with refCount := node.refCount + if other = ptr then change else 0 } := by
  unfold addRef
  by_cases eq : other = ptr
  · simp [eq]
  · cases hf : world.nodes other <;> simp [eq, hf]

theorem key_addRef (change : Int) : (world.addRef ptr change).key = world.key := by
  funext other
  unfold key
  rw [nodes_addRef]
  cases world.nodes other <;> rfl

theorem addRef_addRef (first snd : Int) : (world.addRef ptr first).addRef ptr snd = world.addRef ptr (first + snd) := by
  have nodes : ((world.addRef ptr first).addRef ptr snd).nodes = (world.addRef ptr (first + snd)).nodes := by
    funext other
    rw [nodes_addRef, nodes_addRef, nodes_addRef]
    cases world.nodes other with
    | none => rfl
    | some node =>
      split <;> simp [Int.add_assoc]
  exact congrArg (fun nodes => { world with nodes }) nodes

theorem addRef_zero : world.addRef ptr 0 = world := by
  have nodes : (world.addRef ptr 0).nodes = world.nodes := by
    funext other
    rw [nodes_addRef]
    cases world.nodes other <;> simp
  exact congrArg (fun nodes => { world with nodes }) nodes

theorem Sound.addRef (sound : world.Sound ahead) (change : Int) (others : ahead ptr + change ≤ 0 →
      ∀ id, id < world.calls.nextFile → world.nodeOf id = ptr → ∃ other, world.calls.live other = true ∧ world.nodeOf other = ptr) :
    (world.addRef ptr change).Sound (update ahead ptr (ahead ptr + change)) := by
  have pre : ∀ other now, (world.addRef ptr change).nodes other = some now → ∃ node, world.nodes other = some node ∧
      now.owner = node.owner ∧ now.inodeId = node.inodeId ∧ now.refCount = node.refCount + if other = ptr then change else 0 := by
    intro other now hf
    rw [nodes_addRef] at hf
    obtain ⟨node, there, rfl⟩ := map_eq_some_iff.mp hf
    exact ⟨node, there, rfl, rfl, rfl⟩
  have after : ∀ other node, world.nodes other = some node →
      ∃ now, (world.addRef ptr change).nodes other = some now ∧ now.owner = node.owner := by
    intro other node there
    exact ⟨_, (nodes_addRef change other).trans (congrArg (Option.map _) there), rfl⟩
  refine { sound with noded := fun id live plain => ?_, counts := fun other now owner hf own => ?_, left := fun id bound there => ?_,
                      regions := fun i used => ?_, piped := fun other now hf own => ?_,
                      pipesApart := fun a b one other first snd own theirs eq => ?_, buffered := fun other buf made => ?_,
                      notSocket := fun other now hf => ?_, cached := (key_addRef change).symm ▸ sound.cached,
                      cacheOwned := fun other now mem hf => ?_, nodeBound := fun other there => ?_ }
  · obtain ⟨node, owner, hf, own⟩ := sound.noded id live plain
    obtain ⟨now, there, eq⟩ := after _ node hf
    exact ⟨now, owner, there, eq.trans own⟩
  · obtain ⟨node, there, eq, _, count⟩ := pre other now hf
    have old := sound.counts other node owner there (eq.symm.trans own)
    rw [count, old]
    by_cases h : other = ptr
    · rw [if_pos h, h, update_self]
      change ((world.opened ptr).card : Int) + ahead ptr + change = (world.opened ptr).card + (ahead ptr + change)
      omega
    · rw [if_neg h, update_of_ne h]
      change ((world.opened other).card : Int) + ahead other + 0 = (world.opened other).card + ahead other
      omega
  · change (∃ other, world.calls.live other = true ∧ world.nodeOf other = world.nodeOf id) ∨ _ < update ahead ptr _ (world.nodeOf id)
    by_cases h : world.nodeOf id = ptr
    · rw [h, update_self]
      by_cases more : 0 < ahead ptr + change
      · exact .inr more
      · exact .inl (others (Int.not_lt.mp more) id bound h)
    · rw [update_of_ne h]
      obtain ⟨now, hf⟩ := isSome_iff_exists.mp there
      obtain ⟨node, old, _⟩ := pre _ now hf
      exact sound.left id bound (old ▸ rfl)
  · obtain ⟨count, lt, node, hf, own⟩ := sound.regions i used
    obtain ⟨now, there, eq⟩ := after _ node hf
    exact ⟨count, lt, now, there, eq.trans own⟩
  · obtain ⟨node, there, eq, sameId, _⟩ := pre other now hf
    rw [sameId]
    exact sound.piped other node there (eq.symm.trans own)
  · obtain ⟨node, there, sameOwner, sameId, _⟩ := pre a one first
    obtain ⟨node', there', sameOwner', sameId', _⟩ := pre b other snd
    exact sound.pipesApart a b node node' there there' (sameOwner.symm.trans own) (sameOwner'.symm.trans theirs)
      (sameId.symm.trans (eq.trans sameId'))
  · obtain ⟨bound, lives⟩ := sound.buffered other buf made
    refine ⟨bound, fun live => ?_⟩
    obtain ⟨node, hf, own⟩ := lives live
    obtain ⟨now, there, eq⟩ := after _ node hf
    exact ⟨now, there, eq.trans own⟩
  · obtain ⟨node, there, eq, _⟩ := pre other now hf
    exact eq ▸ sound.notSocket other node there
  · obtain ⟨node, there, eq, _⟩ := pre other now hf
    exact eq ▸ sound.cacheOwned other node mem there
  · obtain ⟨now, hf⟩ := isSome_iff_exists.mp there
    obtain ⟨node, old, _⟩ := pre _ now hf
    exact sound.nodeBound other (old ▸ rfl)

/-! ## An inode goes -/

theorem remove_named {named : List (Option Nat)} {buf : Nat} (live : world.buffers buf = true) :
    KeyedSlots.remove some named buf = KeyedSlots.remove world.bufferKey named buf := by
  have eq : KeyedSlots.holds some buf = KeyedSlots.holds world.bufferKey buf := by
    funext slot
    cases slot with
    | none => rfl
    | some other =>
      by_cases h : other = buf
      · simp [KeyedSlots.holds, bufferKey, h, live]
      · simp [KeyedSlots.holds, bufferKey, h]
  unfold KeyedSlots.remove
  rw [eq]

theorem bufferKey_update {buf : Nat} (live : Bool) : bufferKey { world with buffers := update world.buffers buf live } =
    update world.bufferKey buf (if live then some buf else none) := by
  funext other
  by_cases eq : other = buf
  · simp [bufferKey, eq]
  · simp [bufferKey, eq]

theorem Sound.dropped {named : List (Option Nat)} {buffers : Nat → Bool} (sound : world.Sound (update (fun _ => 0) ptr 1))
    (hf : world.nodes ptr = some node) (own : node.owner ≠ none) (last : node.refCount = 1)
    (pipe : node.owner = some .pipe → named = KeyedSlots.remove some world.named node.inodeId ∧
      buffers = update world.buffers node.inodeId false)
    (other : node.owner ≠ some .pipe → named = world.named ∧ buffers = world.buffers) :
    Sound { world with
      nodes := update world.nodes ptr none
      cache := KeyedSlots.remove world.key world.cache node.key
      named, buffers } fun _ => 0 := by
  obtain ⟨owner, own⟩ := ne_none_iff_exists'.mp own
  have nobody : world.opened ptr = ∅ := by
    have count := sound.counts ptr node owner hf own
    rw [last, update_self] at count
    exact Finset.card_eq_zero.mp (by omega)
  have pre : ∀ at' now, update world.nodes ptr none at' = some now → at' ≠ ptr ∧ world.nodes at' = some now := by
    intro at' now there
    have ne : at' ≠ ptr := by
      rintro rfl
      exact nomatch (update_self ..).symm.trans there
    exact ⟨ne, (update_of_ne ne ..).symm.trans there⟩
  have after : ∀ at', at' ≠ ptr → update world.nodes ptr none at' = world.nodes at' := fun at' ne =>
    update_of_ne ne ..
  -- A buffer that is left is not the one of this inode.
  have leftLive : ∀ buf, buffers buf = true → world.buffers buf = true ∧ (node.owner = some .pipe → buf ≠ node.inodeId) := by
    intro buf live
    by_cases isPipe : node.owner = some .pipe
    · rw [(pipe isPipe).2] at live
      have ne : buf ≠ node.inodeId := by
        rintro rfl
        exact nomatch (update_self ..).symm.trans live
      exact ⟨(update_of_ne ne ..).symm.trans live, fun _ => ne⟩
    · grind
  have stays : ∀ buf, world.buffers buf = true → (node.owner = some .pipe → buf ≠ node.inodeId) → buffers buf = true := by
    intro buf live ne
    by_cases isPipe : node.owner = some .pipe
    · rw [(pipe isPipe).2, update_of_ne (ne isPipe)]
      exact live
    · exact (other isPipe).2 ▸ live
  have key : FileWorld.key { world with
      nodes := update world.nodes ptr none
      cache := KeyedSlots.remove world.key world.cache node.key
      named, buffers } = update world.key ptr none := by
    funext at'
    by_cases eq : at' = ptr <;> simp [FileWorld.key, eq]
  have keyed : world.key ptr = some node.key := congrArg (Option.map FileNode.key) hf
  refine { sound with noded := fun id live plain => ?_, counts := fun at' now theirs there owned => ?_, left := fun id bound there => ?_,
                      regions := fun i used => ?_, piped := fun at' now there isPipe => ?_,
                      pipesApart := fun a b one two first snd => ?_, buffered := fun at' buf made => ?_,
                      notSocket := fun at' now there => sound.notSocket at' now (pre at' now there).2,
                      cached := key ▸ sound.cached.removed keyed, cacheOwned := fun at' now mem there => ?_, entries := ?_,
                      nodeBound := fun at' there => ?_, bufferBound := fun buf live => sound.bufferBound buf (leftLive buf live).1 }
  · have ne : world.nodeOf id ≠ ptr := by
      intro eq
      have mem : id ∈ world.opened ptr := mem_opened.mpr ⟨sound.lt_of_live live, live, plain, eq⟩
      exact absurd (nobody ▸ mem) (Finset.notMem_empty id)
    obtain ⟨now, theirs, there, owned⟩ := sound.noded id live plain
    exact ⟨now, theirs, (after _ ne).trans there, owned⟩
  · obtain ⟨ne, old⟩ := pre at' now there
    have count := sound.counts at' now theirs old owned
    rw [update_of_ne ne] at count
    exact count
  · obtain ⟨now, there⟩ := isSome_iff_exists.mp there
    obtain ⟨ne, old⟩ := pre _ now there
    rcases sound.left id bound (old ▸ rfl) with some_ | ahead
    · exact .inl some_
    · grind
  · obtain ⟨count, lt, now, there, none_⟩ := sound.regions i used
    have ne : world.regionNode i ≠ ptr := by
      intro eq
      rw [eq, hf] at there
      cases there
      cases own.symm.trans none_
    exact ⟨count, lt, now, (after _ ne).trans there, none_⟩
  · obtain ⟨ne, old⟩ := pre at' now there
    obtain ⟨live, made⟩ := sound.piped at' now old isPipe
    exact ⟨stays _ live fun mine eq => ne (sound.pipesApart at' ptr now node old hf isPipe mine eq), made⟩
  · exact sound.pipesApart a b one two (pre a one first).2 (pre b two snd).2
  · obtain ⟨bound, lives⟩ := sound.buffered at' buf made
    refine ⟨bound, fun live => ?_⟩
    obtain ⟨old, ne⟩ := leftLive buf live
    obtain ⟨now, there, isPipe⟩ := lives old
    have elsewhere : at' ≠ ptr := by
      rintro rfl
      obtain rfl := some.inj (hf.symm.trans there)
      exact ne isPipe (some.inj (made.symm.trans (sound.piped at' node hf isPipe).2))
    exact ⟨now, (after _ elsewhere).trans there, isPipe⟩
  · exact sound.cacheOwned at' now (KeyedSlots.mem_of_remove mem) (pre at' now there).2
  · by_cases isPipe : node.owner = some .pipe
    · obtain ⟨removed, cleared⟩ := pipe isPipe
      have live := (sound.piped ptr node hf isPipe).1
      subst removed cleared
      have entries := sound.entries.removed (show world.bufferKey node.inodeId = some node.inodeId from if_pos live)
      rw [← remove_named live] at entries
      exact (bufferKey_update false).symm ▸ entries
    · obtain ⟨rfl, rfl⟩ := other isPipe
      exact sound.entries
  · obtain ⟨now, there⟩ := isSome_iff_exists.mp there
    exact sound.nodeBound at' ((pre at' now there).2 ▸ rfl)

/-! ## An inode and a file are made -/

theorem Sound.newNode {owner : NodeOwner} {inCache : Bool} (sound : world.Sound fun _ => 0) (own : node.owner = some owner)
    (notSocket : owner ≠ .socket) (uncached : inCache = true → KeyedSlots.lookup world.key world.cache node.key = none)
    (pipe : owner = .pipe → world.buffers node.inodeId = true ∧
      ∀ ptr other, world.nodes ptr = some other → other.owner = some .pipe → other.inodeId ≠ node.inodeId) :
    (world.newNode node inCache).Sound (update (fun _ => 0) world.nextNode node.refCount) := by
  have empty : world.nodes world.nextNode = none := by
    cases hf : world.nodes world.nextNode with
    | none => rfl
    | some _ => exact absurd (sound.nodeBound _ (hf ▸ rfl)) (Nat.lt_irrefl _)
  have unkeyed : world.key world.nextNode = none := congrArg (Option.map FileNode.key) empty
  have pre : ∀ at' now, (world.newNode node inCache).nodes at' = some now →
      at' = world.nextNode ∧ now = node ∨ at' ≠ world.nextNode ∧ world.nodes at' = some now := by
    intro at' now there
    by_cases h : at' = world.nextNode
    · have eq : some node = some now := by simpa [FileWorld.newNode, h] using there
      exact .inl ⟨h, (some.inj eq).symm⟩
    · exact .inr ⟨h, (update_of_ne h ..).symm.trans there⟩
  have after : ∀ at' now, world.nodes at' = some now → (world.newNode node inCache).nodes at' = some now := by
    intro at' now there
    refine (update_of_ne ?_ ..).trans there
    rintro rfl
    exact nomatch empty.symm.trans there
  have key : (world.newNode node inCache).key = update world.key world.nextNode (some node.key) := by
    funext at'
    by_cases eq : at' = world.nextNode <;> simp [FileWorld.key, FileWorld.newNode, eq]
  have nobody : world.opened world.nextNode = ∅ := by
    refine Finset.eq_empty_of_forall_notMem fun id mem => ?_
    obtain ⟨_, live, plain, there⟩ := mem_opened.mp mem
    obtain ⟨now, _, hf, _⟩ := sound.noded id live plain
    rw [there, empty] at hf
    exact nomatch hf
  have owner_eq : node.owner = some .pipe ↔ owner = .pipe := by simp [own]
  refine { sound with noded := fun id live plain => ?_, counts := fun at' now theirs there owned => ?_, left := fun id bound there => ?_,
                      regions := fun i used => ?_, piped := fun at' now there isPipe => ?_,
                      pipesApart := fun a b one two first snd isPipe isToo eq => ?_, buffered := fun at' buf made => ?_,
                      notSocket := fun at' now there => ?_, cached := ?_, cacheOwned := fun at' now mem there => ?_,
                      nodeBound := fun at' there => ?_, bufferOfBound := fun at' made => ?_,
                      nodeOfBound := fun id bound => Nat.lt_succ_of_lt (sound.nodeOfBound id bound) }
  · obtain ⟨now, theirs, there, owned⟩ := sound.noded id live plain
    exact ⟨now, theirs, after _ now there, owned⟩
  · change now.refCount = ((world.opened at').card : Int) + _
    rcases pre at' now there with ⟨rfl, rfl⟩ | ⟨ne, old⟩
    · rw [nobody, update_self]
      simp
    · rw [update_of_ne ne]
      exact sound.counts at' now theirs old owned
  · have ne := Nat.ne_of_lt (sound.nodeOfBound id bound)
    change (∃ other, world.calls.live other = true ∧ world.nodeOf other = world.nodeOf id) ∨ _ <
      update (fun _ => (0 : Int)) _ _ (world.nodeOf id)
    rw [update_of_ne ne]
    obtain ⟨now, there⟩ := isSome_iff_exists.mp there
    rcases pre _ now there with ⟨h, _⟩ | ⟨_, old⟩
    · exact absurd h ne
    · exact sound.left id bound (old ▸ rfl)
  · obtain ⟨count, lt, now, there, none_⟩ := sound.regions i used
    exact ⟨count, lt, now, after _ now there, none_⟩
  · rcases pre at' now there with ⟨rfl, rfl⟩ | ⟨ne, old⟩
    · exact ⟨(pipe (owner_eq.mp isPipe)).1, (update_self ..).trans (if_pos isPipe)⟩
    · obtain ⟨live, made⟩ := sound.piped at' now old isPipe
      exact ⟨live, (update_of_ne ne ..).trans made⟩
  · rcases pre a one first with ⟨rfl, rfl⟩ | ⟨_, old⟩ <;> rcases pre b two snd with ⟨rfl, rfl⟩ | ⟨_, old'⟩
    · rfl
    · grind
    · grind
    · exact sound.pipesApart a b one two old old' isPipe isToo eq
  · by_cases h : at' = world.nextNode
    · rw [h] at made ⊢
      have chosen := (update_self ..).symm.trans made
      split at chosen
      case isTrue isPipe =>
        cases chosen
        exact ⟨sound.bufferBound _ (pipe (owner_eq.mp isPipe)).1, fun _ => ⟨node, update_self .., isPipe⟩⟩
      case isFalse => cases chosen
    · obtain ⟨bound, lives⟩ := sound.buffered at' buf ((update_of_ne h ..).symm.trans made)
      refine ⟨bound, fun live => ?_⟩
      obtain ⟨now, there, isPipe⟩ := lives live
      exact ⟨now, after _ now there, isPipe⟩
  · rcases pre at' now there with ⟨_, rfl⟩ | ⟨_, old⟩
    · grind
    · exact sound.notSocket at' now old
  · rw [key]
    cases inCache with
    | true => exact sound.cached.inserted unkeyed (uncached rfl)
    | false =>
      refine sound.cached.congr fun other mem => update_of_ne ?_ ..
      rintro rfl
      cases unkeyed ▸ sound.cached.held _ mem
  · rcases pre at' now there with ⟨_, rfl⟩ | ⟨ne, old⟩
    · rw [own]
      exact some_ne_none _
    · refine sound.cacheOwned at' now ?_ old
      cases inCache with
      | true => exact (KeyedSlots.mem_of_insert mem).resolve_left ne
      | false => exact mem
  · obtain ⟨now, there⟩ := isSome_iff_exists.mp there
    rcases pre at' now there with ⟨rfl, _⟩ | ⟨_, old⟩
    · exact Nat.lt_succ_self _
    · exact Nat.lt_succ_of_lt (sound.nodeBound at' (old ▸ rfl))
  · by_cases h : at' = world.nextNode
    · exact h ▸ Nat.lt_succ_self _
    · have old : world.bufferOf at' = (world.newNode node inCache).bufferOf at' := (update_of_ne h ..).symm
      exact Nat.lt_succ_of_lt (sound.bufferOfBound at' (old ▸ made))

section

variable {regions : Nat → ShmRegion} {file : Process.File}

theorem files_newFile (other : FileId) (ptr : Nat) : (world.newFile file ptr).calls.files other =
    if other = world.calls.nextFile then file else world.calls.files other := update_apply ..

theorem live_newFile (other : FileId) (ptr : Nat) : (world.newFile file ptr).calls.live other =
    if other = world.calls.nextFile then true else world.calls.live other := update_apply ..

theorem nodeOf_newFile (other : FileId) (ptr : Nat) : (world.newFile file ptr).nodeOf other =
    if other = world.calls.nextFile then ptr else world.nodeOf other := update_apply ..

theorem filter_newFile {p q : Nat → Prop} [DecidablePred p] [DecidablePred q] {n : Nat}
    (same : ∀ other < n, (p other ↔ q other)) : (Finset.range (n + 1)).filter p =
      if p n then insert n ((Finset.range n).filter q) else (Finset.range n).filter q := by
  have below : (Finset.range n).filter p = (Finset.range n).filter q :=
    Finset.filter_congr fun other mem => same other (Finset.mem_range.mp mem)
  rw [Finset.range_add_one, Finset.filter_insert, below]

theorem opened_newFile (ptr at' : Nat) : (world.newFile file ptr).opened at' =
    if file.type ≠ .shm ∧ at' = ptr then insert world.calls.nextFile (world.opened at') else world.opened at' := by
  refine (filter_newFile fun other lt => ?_).trans (if_congr ?_ rfl rfl)
  · rw [live_newFile, files_newFile, nodeOf_newFile, if_neg lt.ne, if_neg lt.ne, if_neg lt.ne]
  · rw [live_newFile, files_newFile, nodeOf_newFile, if_pos rfl, if_pos rfl, if_pos rfl, eq_comm (a := at')]
    exact and_iff_right rfl

theorem mapped_newFile (ptr i : Nat) : (world.newFile file ptr).mapped i =
    if file.type = .shm ∧ i = file.privateData then insert world.calls.nextFile (world.mapped i) else world.mapped i := by
  refine (filter_newFile fun other lt => ?_).trans (if_congr ?_ rfl rfl)
  · rw [live_newFile, files_newFile, if_neg lt.ne, if_neg lt.ne]
  · rw [live_newFile, files_newFile, if_pos rfl, if_pos rfl, eq_comm (a := i)]
    exact and_iff_right rfl

theorem Sound.addFile {ahead' : Nat → Int} (sound : world.Sound ahead) (bound : ptr < world.nextNode)
    (noded : file.type ≠ .shm → ∃ node owner, world.nodes ptr = some node ∧ node.owner = some owner)
    (shm : file.type = .shm → (regions file.privateData).used = true ∧ ptr = world.regionNode file.privateData)
    (cnt : ∀ at', ahead at' = ahead' at' + if file.type ≠ .shm ∧ at' = ptr then 1 else 0)
    (kept : ∀ i, (world.calls.regions i).used = true → (regions i).used = true)
    (counts : ∀ i, (regions i).used = true →
      (regions i).refCount = (world.mapped i).card + (if file.type = .shm ∧ i = file.privateData then 1 else 0) ∧
      (regions i).refCount < 2 ^ 32 ∧ ∃ node, world.nodes (world.regionNode i) = some node ∧ node.owner = none)
    (ne : ∀ i j, (regions i).used = true → (regions j).used = true → world.regionNode i = world.regionNode j → i = j) :
    (newFile { world with calls := { world.calls with regions } } file ptr).Sound ahead' := by
  generalize made : newFile { world with calls := { world.calls with regions } } file ptr = after
  have files : ∀ other, after.calls.files other = if other = world.calls.nextFile then file else world.calls.files other :=
    fun other => made ▸ files_newFile other ptr
  have lives : ∀ other, after.calls.live other = if other = world.calls.nextFile then true else world.calls.live other :=
    fun other => made ▸ live_newFile other ptr
  have nodeOf : ∀ other, after.nodeOf other = if other = world.calls.nextFile then ptr else world.nodeOf other :=
    fun other => made ▸ nodeOf_newFile other ptr
  have opened : ∀ at', after.opened at' = if file.type ≠ .shm ∧ at' = ptr then insert world.calls.nextFile (world.opened at')
      else world.opened at' := fun at' => made ▸ opened_newFile ptr at'
  have mapped : ∀ i, after.mapped i = if file.type = .shm ∧ i = file.privateData then insert world.calls.nextFile (world.mapped i)
      else world.mapped i := fun i => made ▸ mapped_newFile ptr i
  have unopened : ∀ at', world.calls.nextFile ∉ world.opened at' := fun at' mem => Nat.lt_irrefl _ (mem_opened.mp mem).1
  have unmapped : ∀ i, world.calls.nextFile ∉ world.mapped i := fun i mem => Nat.lt_irrefl _ (mem_mapped.mp mem).1
  have nextFile : after.calls.nextFile = world.calls.nextFile + 1 := made ▸ rfl
  have old : ∀ id, id < after.calls.nextFile → id ≠ world.calls.nextFile → id < world.calls.nextFile := by
    intro id below ne
    rw [nextFile] at below
    exact Nat.lt_of_le_of_ne (Nat.le_of_lt_succ below) ne
  have nodes : after.nodes = world.nodes := made ▸ rfl
  have regionNode : after.regionNode = world.regionNode := made ▸ rfl
  have regions' : after.calls.regions = regions := made ▸ rfl
  have closes : after.closes = world.closes := made ▸ rfl
  have deletes : after.deletes = world.deletes := made ▸ rfl
  obtain ⟨_, fresh, fresh'⟩ := sound.beyond world.calls.nextFile (Nat.le_refl _)
  refine { whole := made ▸ sound.whole, torn := fun id below => ?_, beyond := fun id beyond => ?_, noded := fun id live plain => ?_,
           counts := fun at' node owner hf own => ?_, left := fun id below there => ?_, shm := fun id live shared => ?_,
           regions := fun i used => ?_, regionsApart := ?_, piped := made ▸ sound.piped, pipesApart := made ▸ sound.pipesApart,
           buffered := made ▸ sound.buffered, notSocket := made ▸ sound.notSocket, cached := made ▸ sound.cached,
           cacheOwned := made ▸ sound.cacheOwned, entries := made ▸ sound.entries, nodeBound := made ▸ sound.nodeBound,
           bufferBound := made ▸ sound.bufferBound, bufferOfBound := made ▸ sound.bufferOfBound, nodeOfBound := fun id below => ?_ }
  · rw [lives, closes, deletes]
    by_cases h : id = world.calls.nextFile
    · grind
    · rw [if_neg h]
      exact sound.torn id (old id below h)
  · rw [nextFile] at beyond
    rw [lives, closes, deletes, if_neg (Nat.ne_of_gt beyond)]
    exact sound.beyond id (Nat.le_of_succ_le beyond)
  · rw [files] at plain
    rw [lives] at live
    rw [nodeOf, nodes]
    by_cases h : id = world.calls.nextFile
    · rw [if_pos h] at plain ⊢
      exact noded plain
    · rw [if_neg h] at plain live ⊢
      exact sound.noded id live plain
  · rw [nodes] at hf
    rw [opened, sound.counts at' node owner hf own, cnt at']
    split
    · grind
    · simp
  · rw [nodes, nodeOf] at there
    by_cases h : id = world.calls.nextFile
    · exact .inl ⟨id, by rw [lives, if_pos h], rfl⟩
    · rw [if_neg h] at there
      rw [nodeOf, if_neg h]
      rcases sound.left id (old id below h) there with ⟨other, live, eq⟩ | more
      · have ne : other ≠ world.calls.nextFile := Nat.ne_of_lt (sound.lt_of_live live)
        exact .inl ⟨other, by rw [lives, if_neg ne, live], by rw [nodeOf, if_neg ne, eq]⟩
      · have count := cnt (world.nodeOf id)
        by_cases mine : file.type ≠ .shm ∧ world.nodeOf id = ptr
        · grind
        · grind
  · rw [files] at shared ⊢
    rw [lives] at live
    rw [nodeOf, regionNode, regions']
    by_cases h : id = world.calls.nextFile
    · grind
    · rw [if_neg h] at shared live ⊢
      rw [if_neg h]
      obtain ⟨used, eq⟩ := sound.shm id live shared
      exact ⟨kept _ used, eq⟩
  · rw [regions'] at used ⊢
    rw [mapped, nodes, regionNode]
    obtain ⟨count, rest⟩ := counts i used
    refine ⟨?_, rest⟩
    rw [count]
    split
    · rw [Finset.card_insert_of_notMem (unmapped i)]
    · rfl
  · rw [regions', regionNode]
    exact ne
  · rw [nodeOf]
    have next : after.nextNode = world.nextNode := made ▸ rfl
    rw [next]
    split
    case isTrue => exact bound
    case isFalse h => exact sound.nodeOfBound id (old id below h)

theorem Sound.opened {owner : NodeOwner} {ahead' : Nat → Int} (sound : world.Sound ahead) (hf : world.nodes ptr = some node)
    (own : node.owner = some owner) (plain : file.type ≠ .shm) (cnt : ∀ at', ahead at' = ahead' at' + if at' = ptr then 1 else 0) :
    (world.newFile file ptr).Sound ahead' := by
  have kept : ∀ i, (world.calls.regions i).used = true → (world.calls.regions i).used = true := fun _ used => used
  refine sound.addFile (sound.nodeBound ptr (hf ▸ rfl)) (fun _ => ⟨node, owner, hf, own⟩) (fun shared => absurd shared plain)
    (fun at' => ?_) kept (fun i used => ?_) sound.regionsApart
  · simpa [plain] using cnt at'
  · simpa [plain] using sound.regions i used

end

/-! ## A shared memory file goes -/

theorem Sound.released {nodes : Nat → Option FileNode} {region : ShmRegion} {i : Nat} (sound : world.Sound fun _ => 0)
    (live : world.calls.live id = true) (shared : (world.calls.files id).type = .shm) (isRegion : (world.calls.files id).privateData = i)
    (released : (world.mapped i).card = 1 ∧ region.used = false ∧ nodes = update world.nodes (world.regionNode i) none ∨
      1 < (world.mapped i).card ∧ region.used = true ∧ region.refCount = (world.mapped i).card - 1 ∧ nodes = world.nodes) :
    Sound { world.gone id with
      calls := { (world.gone id).calls with regions := update world.calls.regions i region }
      nodes } fun _ => 0 := by
  have below := sound.lt_of_live live
  have mem : id ∈ world.mapped i := mem_mapped.mpr ⟨below, live, shared, isRegion⟩
  obtain ⟨used, sameNode⟩ := sound.shm id live shared
  rw [isRegion] at used sameNode
  obtain ⟨count, lt, regionInode, thatNode, ownerless⟩ := sound.regions i used
  have pre : ∀ at' now, nodes at' = some now → world.nodes at' = some now ∧
      ((world.mapped i).card = 1 → at' ≠ world.regionNode i) := by
    intro at' now there
    rcases released with ⟨_, _, rfl⟩ | ⟨more, _, _, rfl⟩
    · have ne : at' ≠ world.regionNode i := by
        rintro rfl
        exact nomatch (update_self ..).symm.trans there
      exact ⟨(update_of_ne ne ..).symm.trans there, fun _ => ne⟩
    · grind
  -- Every other inode is where it was.
  have after : ∀ at', at' ≠ world.regionNode i → nodes at' = world.nodes at' := by
    intro at' ne
    rcases released with ⟨_, _, rfl⟩ | ⟨_, _, _, rfl⟩
    · exact update_of_ne ne ..
    · rfl
  have owned : ∀ at' now owner, world.nodes at' = some now → now.owner = some owner → at' ≠ world.regionNode i := by
    rintro at' now owner there own rfl
    obtain rfl := some.inj (thatNode.symm.trans there)
    exact nomatch ownerless.symm.trans own
  have plainApart : ∀ ptr, id ∉ world.opened ptr := fun ptr hin => (mem_opened.mp hin).2.2.1 shared
  refine { sound with torn := fun other => sound.torn_gone live, beyond := fun other => sound.beyond_gone live,
                      noded := fun other there plain => ?_, counts := fun at' now owner there own => ?_,
                      left := fun other bound there => ?_, shm := fun other there theirs => ?_,
                      regions := fun j inUse => ?_, regionsApart := fun j k first snd => ?_, piped := fun at' now there => ?_,
                      pipesApart := fun a b one two first snd => ?_, buffered := fun at' buf made => ?_,
                      notSocket := fun at' now there => sound.notSocket at' now (pre at' now there).1, cached := ?_,
                      cacheOwned := fun at' now inCache there => sound.cacheOwned at' now inCache (pre at' now there).1,
                      nodeBound := fun at' there => ?_ }
  · obtain ⟨now, owner, there', own⟩ := sound.noded other (live_gone there).2 (addRef_type (-1) other ▸ plain)
    exact ⟨now, owner, (after _ (owned _ now owner there' own)).trans there', own⟩
  · have eq : (world.gone id).opened at' = world.opened at' := (opened_gone at').trans (Finset.erase_eq_of_notMem (plainApart at'))
    change now.refCount = (((world.gone id).opened at').card : Int) + 0
    rw [eq]
    exact sound.counts at' now owner (pre at' now there).1 own
  · obtain ⟨now, there⟩ := isSome_iff_exists.mp there
    obtain ⟨old, ne⟩ := pre _ now there
    rcases sound.left other bound (old ▸ rfl) with ⟨third, theirs, eq⟩ | ahead
    · by_cases h : third = id
      · -- Another file of the region is left, or its inode is gone.
        rw [h, sameNode] at eq
        rcases released with ⟨single, _⟩ | ⟨more, _⟩
        · exact absurd eq.symm (ne single)
        · obtain ⟨fourth, among, different⟩ := Finset.exists_mem_ne more id
          obtain ⟨_, theirs, shared', data⟩ := mem_mapped.mp among
          obtain ⟨_, node⟩ := sound.shm fourth theirs shared'
          rw [data] at node
          exact .inl ⟨fourth, (update_of_ne different ..).trans theirs, node.trans eq⟩
      · exact .inl ⟨third, (update_of_ne h ..).trans theirs, eq⟩
    · exact absurd ahead (Int.lt_irrefl 0)
  · obtain ⟨ne, theirLive⟩ := live_gone there
    have isShm : (world.calls.files other).type = .shm := addRef_type (-1) other ▸ theirs
    obtain ⟨theirUsed, node⟩ := sound.shm other theirLive isShm
    change (update world.calls.regions i region ((world.calls.addRef id (-1)).files other).privateData).used = true ∧
      world.nodeOf other = world.regionNode ((world.calls.addRef id (-1)).files other).privateData
    rw [addRef_privateData]
    refine ⟨?_, node⟩
    by_cases h : (world.calls.files other).privateData = i
    · rw [h, update_self]
      have among : other ∈ world.mapped i := mem_mapped.mpr ⟨sound.lt_of_live theirLive, theirLive, isShm, h⟩
      rcases released with ⟨single, _⟩ | ⟨_, used', _⟩
      · exact absurd (Finset.card_le_one.mp (Nat.le_of_eq single) other among id mem) ne
      · exact used'
    · rw [update_of_ne h]
      exact theirUsed
  · change (update world.calls.regions i region j).refCount = ((world.gone id).mapped j).card ∧
      (update world.calls.regions i region j).refCount < 2 ^ 32 ∧
      ∃ node, nodes (world.regionNode j) = some node ∧ node.owner = none
    change (update world.calls.regions i region j).used = true at inUse
    rw [mapped_gone]
    by_cases h : j = i
    · rw [h, update_self] at inUse ⊢
      rcases released with ⟨_, unused, _⟩ | ⟨more, _, less, rfl⟩
      · exact nomatch unused.symm.trans inUse
      · grind
    · rw [update_of_ne h] at inUse ⊢
      obtain ⟨count', small', now, there, none_⟩ := sound.regions j inUse
      have out : id ∉ world.mapped j := fun hin => h ((mem_mapped.mp hin).2.2.2.symm.trans isRegion)
      rw [Finset.erase_eq_of_notMem out]
      exact ⟨count', small', now, (after _ fun eq => h (sound.regionsApart j i inUse used eq)).trans there, none_⟩
  · have wasUsed : ∀ j, (update world.calls.regions i region j).used = true → (world.calls.regions j).used = true := by
      intro j inUse
      by_cases h : j = i
      · exact h ▸ used
      · rwa [update_of_ne h] at inUse
    exact sound.regionsApart j k (wasUsed j first) (wasUsed k snd)
  · exact sound.piped at' now (pre at' now there).1
  · exact sound.pipesApart a b one two (pre a one first).1 (pre b two snd).1
  · obtain ⟨bound, lives⟩ := sound.buffered at' buf made
    refine ⟨bound, fun inUse => ?_⟩
    obtain ⟨now, there, isPipe⟩ := lives inUse
    exact ⟨now, (after _ (owned _ now _ there isPipe)).trans there, isPipe⟩
  · refine sound.cached.congr fun at' inCache => congrArg (Option.map FileNode.key) (after at' ?_)
    rintro rfl
    exact sound.cacheOwned _ regionInode inCache thatNode ownerless
  · obtain ⟨now, there⟩ := isSome_iff_exists.mp there
    exact sound.nodeBound at' ((pre at' now there).1 ▸ rfl)

/-! ## An inode of a region and a buffer are made -/

theorem Sound.newRegionNode {i : Nat} (sound : world.Sound fun _ => 0) (unused : (world.calls.regions i).used = false)
    (ownerless : node.owner = none) : Sound { world with
      nodes := update world.nodes world.nextNode (some node)
      nextNode := world.nextNode + 1
      regionNode := update world.regionNode i world.nextNode } fun _ => 0 := by
  have fresh : ∀ at', (world.nodes at').isSome → at' ≠ world.nextNode := fun at' there => Nat.ne_of_lt (sound.nodeBound at' there)
  have pre : ∀ at' now owner, update world.nodes world.nextNode (some node) at' = some now → now.owner = some owner →
      world.nodes at' = some now := by
    intro at' now owner there own
    by_cases h : at' = world.nextNode
    · grind
    · exact (update_of_ne h ..).symm.trans there
  have after : ∀ at' now, world.nodes at' = some now → update world.nodes world.nextNode (some node) at' = some now :=
    fun at' now there => (update_of_ne (fresh at' (there ▸ rfl)) ..).trans there
  have inUse : ∀ j, (world.calls.regions j).used = true → j ≠ i := by
    rintro j used rfl
    exact nomatch unused.symm.trans used
  have where_ : ∀ j, (world.calls.regions j).used = true → update world.regionNode i world.nextNode j = world.regionNode j :=
    fun j used => update_of_ne (inUse j used) ..
  refine { sound with noded := fun id live plain => ?_, counts := fun at' now owner there own => ?_, left := fun id bound there => ?_,
                      shm := fun id live shared => ?_, regions := fun j used => ?_, regionsApart := fun j k first snd eq => ?_,
                      piped := fun at' now there isPipe => sound.piped at' now (pre at' now _ there isPipe) isPipe,
                      pipesApart := fun a b one two first snd isPipe isToo => ?_, buffered := fun at' buf made => ?_,
                      notSocket := fun at' now there isSocket => ?_, cached := ?_, cacheOwned := fun at' now mem there => ?_,
                      nodeBound := fun at' there => ?_, bufferOfBound := fun at' made => Nat.lt_succ_of_lt (sound.bufferOfBound at' made),
                      nodeOfBound := fun id bound => Nat.lt_succ_of_lt (sound.nodeOfBound id bound) }
  · obtain ⟨now, owner, there, own⟩ := sound.noded id live plain
    exact ⟨now, owner, after _ now there, own⟩
  · exact sound.counts at' now owner (pre at' now owner there own) own
  · refine sound.left id bound ?_
    change (update world.nodes world.nextNode (some node) (world.nodeOf id)).isSome at there
    rwa [update_of_ne (Nat.ne_of_lt (sound.nodeOfBound id bound))] at there
  · obtain ⟨used, eq⟩ := sound.shm id live shared
    exact ⟨used, eq.trans (where_ _ used).symm⟩
  · obtain ⟨count, lt, now, there, none_⟩ := sound.regions j used
    exact ⟨count, lt, now, (congrArg _ (where_ j used)).trans (after _ now there), none_⟩
  · exact sound.regionsApart j k first snd ((where_ j first).symm.trans (eq.trans (where_ k snd)))
  · exact sound.pipesApart a b one two (pre a one _ first isPipe) (pre b two _ snd isToo) isPipe isToo
  · obtain ⟨bound, lives⟩ := sound.buffered at' buf made
    refine ⟨bound, fun live => ?_⟩
    obtain ⟨now, there, isPipe⟩ := lives live
    exact ⟨now, after _ now there, isPipe⟩
  · exact sound.notSocket at' now (pre at' now _ there isSocket) isSocket
  · refine sound.cached.congr fun at' mem => ?_
    have keyed : ((world.nodes at').map FileNode.key).isSome := sound.cached.held at' mem
    exact congrArg (Option.map FileNode.key) (update_of_ne (fresh at' (by simpa using keyed)) ..)
  · have keyed : ((world.nodes at').map FileNode.key).isSome := sound.cached.held at' mem
    exact sound.cacheOwned at' now mem ((update_of_ne (fresh at' (by simpa using keyed)) ..).symm.trans there)
  · by_cases h : at' = world.nextNode
    · exact h ▸ Nat.lt_succ_self _
    · have old : update world.nodes world.nextNode (some node) at' = world.nodes at' := update_of_ne h ..
      exact Nat.lt_succ_of_lt (sound.nodeBound at' (old ▸ there))

theorem Sound.newBuffer {names : Nat → String} (sound : world.Sound ahead) (entered : Bool) : Sound { world with
    buffers := update world.buffers world.nextBuffer true
    nextBuffer := world.nextBuffer + 1
    named := if entered then KeyedSlots.insert world.named world.nextBuffer else world.named
    names } ahead := by
  have dead : world.buffers world.nextBuffer = false := by
    cases live : world.buffers world.nextBuffer with
    | false => rfl
    | true => exact absurd (sound.bufferBound _ live) (Nat.lt_irrefl _)
  have unkeyed : world.bufferKey world.nextBuffer = none := by simp [bufferKey, dead]
  have stays : ∀ buf, world.buffers buf = true → update world.buffers world.nextBuffer true buf = true := by
    intro buf live
    rwa [update_of_ne (Nat.ne_of_lt (sound.bufferBound buf live))]
  have absent : some world.nextBuffer ∉ world.named := fun mem => nomatch unkeyed ▸ sound.entries.held _ mem
  refine { sound with piped := fun at' now there isPipe => ?_, buffered := fun at' buf made => ?_, entries := ?_,
                      bufferBound := fun buf live => ?_ }
  · obtain ⟨live, made⟩ := sound.piped at' now there isPipe
    exact ⟨stays _ live, made⟩
  · obtain ⟨bound, lives⟩ := sound.buffered at' buf made
    refine ⟨Nat.lt_succ_of_lt bound, fun live => lives ?_⟩
    exact (update_of_ne (Nat.ne_of_lt bound) ..).symm.trans live
  · have miss : KeyedSlots.lookup world.bufferKey world.named world.nextBuffer = none := by
      cases hf : KeyedSlots.lookup world.bufferKey world.named world.nextBuffer with
      | none => rfl
      | some other =>
        obtain ⟨mem, keyed⟩ := KeyedSlots.lookup_eq_some hf
        unfold bufferKey at keyed
        split at keyed
        case isTrue => exact absurd (some.inj keyed ▸ mem) absent
        case isFalse => exact nomatch keyed
    change KeyedSlots.Sparse (bufferKey { world with buffers := update world.buffers world.nextBuffer true }) _
    rw [bufferKey_update]
    cases entered with
    | true => exact sound.entries.inserted unkeyed miss
    | false =>
      refine sound.entries.congr fun other mem => update_of_ne ?_ ..
      rintro rfl
      exact absent mem
  · by_cases h : buf = world.nextBuffer
    · exact h ▸ Nat.lt_succ_self _
    · exact Nat.lt_succ_of_lt (sound.bufferBound buf ((update_of_ne h ..).symm.trans live))

end RosKernel.Filesys.FileWorld
