import RosKernel.Memory.VirtualOwnership
import RosKernel.Process.FileRuns
import RosKernel.Process.Residency

/-! The kernel's virtual pool while tasks map, touch and unmap user memory.

`UnmapPage` gives every address that it unmaps to `VirtualFreePages`, which takes it without
looking where it lies. `Sys_Munmap` calls it with user addresses, so the pool stays apart from
user memory only as long as nothing is resident in what is unmapped.
-/

set_option autoImplicit false

namespace RosKernel.Process

open Library Memory List Option

/-- Physical memory, the virtual pool with its live pages, and the memory of every task. -/
structure KernelState where
  virtual : VirtualState
  memory : PageMemory
  spaces : Nat → AddressSpace

/-- The kernel allocates and frees pages of its own, and a task enters it with a call or a fault.
The descriptors of a task may change between its calls. -/
inductive KernelCall where
  | virtual (op : VirtualOp)
  | user (pid : Nat) (tables : Descriptors) (call : UserCall)

namespace KernelState

def user (state : KernelState) (pid : Nat) : UserSpace := ⟨⟨state.memory, state.virtual.pool⟩, state.spaces pid⟩

/-- The state after a call; `cr3` names the top-level table of each task. -/
def step (cr3 : Nat → Nat) (state : KernelState) : KernelCall → Option KernelState
  | .virtual op => (state.virtual.step op).map fun virtual => { state with virtual := virtual }
  | .user pid tables call => ((state.user pid).step tables (cr3 pid) call).map fun after => {
      virtual := { state.virtual with pool := after.paging.pool }
      memory := after.paging.memory
      spaces := Function.update state.spaces pid after.space }

end KernelState

/-- Nothing is mapped in the part of the range that areas cover. -/
def UserSpace.Absent (cr3 : Nat) (state : UserSpace) (addr length : Nat) : Prop :=
  ∀ area ∈ state.space.vmas, ∀ pos, area.Has pos → addr ≤ pos → pos < add64 addr (pageAlign length) →
    state.paging.memory.getPhysicalAddress cr3 pos = 0

/-- `Sys_Munmap` finds no resident page. -/
def UserSpace.Unmaps (cr3 : Nat) (state : UserSpace) : UserCall → Prop
  | .munmap addr length _ => state.Absent cr3 addr.toNat length.toNat
  | _ => True

namespace KernelState

/-- Kernel callers free what they own, in the part of the pool that has addresses. -/
def Called (state : KernelState) : KernelCall → Prop
  | .virtual op => state.virtual.CalledAddressable op
  | .user _ _ _ => True

def Meets (cr3 : Nat → Nat) (state : KernelState) (call : KernelCall) : Prop :=
  state.Called call ∧ ∀ pid tables user, call = .user pid tables user → (state.user pid).Unmaps (cr3 pid) user

def boot (kernelVirtEnd : Nat) (memmap : Option (List BootMemRegion)) (memory : PageMemory)
    (spaces : Nat → AddressSpace) : KernelState :=
  ⟨VirtualState.boot kernelVirtEnd memmap, memory, spaces⟩

end KernelState

/-- The effect leaves mappings in place. -/
def MmEffect.isProt : MmEffect → Bool
  | .unmapRange _ _ _ => false
  | _ => true

section

variable {cr3 : Nat} {paging paging' : Paging} {freePhysical : Bool}

theorem unmapFrom_absent {start i pages : Nat}
    (absent : ∀ j, i ≤ j → j < i + pages →
      paging.memory.getPhysicalAddress cr3 (add64 start (mul64 j pageSize)) = 0) :
    paging.unmapFrom cr3 start freePhysical i pages = some paging := by
  induction pages generalizing i with
  | zero => rfl
  | succ pages ih =>
    have h := absent i (Nat.le_refl i) (by omega)
    simp only [Paging.unmapFrom, Paging.unmapOne, h, if_true, bind_some]
    apply ih
    intro j low high
    exact absent j (by omega) (by omega)

theorem unmapRange_absent {start stop : Nat} (range : start ≤ stop) (below : stop ≤ userMaxAddr)
    (absent : ∀ pos, start ≤ pos → pos < stop → paging.memory.getPhysicalAddress cr3 pos = 0) :
    paging.unmapRange cr3 start (sub64 stop start) freePhysical = some paging := by
  simp only [userMaxAddr] at below
  have pages : sub64 (add64 (sub64 stop start) pageSize) 1 / pageSize = (stop - start + 4095) / 4096 := by
    rw [sub64_eq range (by omega), pageSize, add64_eq (by omega), sub64_eq (by omega) (by omega)]
    rfl
  unfold Paging.unmapRange
  rw [pages]
  apply unmapFrom_absent
  intro j _ high
  have hin : start + j * 4096 < stop := by omega
  have pos : add64 start (mul64 j pageSize) = start + j * 4096 := by
    rw [mul64_eq (by simp only [pageSize]; omega), add64_eq (by simp only [pageSize]; omega)]
    rfl
  rw [pos]
  exact absent _ (Nat.le_add_right ..) hin

theorem carve_absent {area : VMArea} {addr endAddr : Nat} (ord : area.start ≤ area.stop)
    (range : addr ≤ endAddr) (below : endAddr ≤ userMaxAddr)
    (absent : ∀ pos, area.Has pos → addr ≤ pos → pos < endAddr → paging.memory.getPhysicalAddress cr3 pos = 0) :
    applyEffects cr3 paging (area.carve addr endAddr).effects = some paging := by
  have cut : ∀ start stop, start ≤ stop → area.start ≤ start → stop ≤ area.stop → addr ≤ start → stop ≤ endAddr →
      paging.unmapRange cr3 start (sub64 stop start) area.backingFile.isNone = some paging := by
    intro start stop nonempty low high first last
    apply unmapRange_absent nonempty (Nat.le_trans last below)
    intro pos above under
    exact absent pos ⟨Nat.le_trans low above, Nat.lt_of_lt_of_le under high⟩ (Nat.le_trans first above)
      (Nat.lt_of_lt_of_le under last)
  unfold VMArea.carve
  split_ifs with ne whole inner ends front backed
  · rfl
  · simp only [applyEffects, applyEffect, cut area.start area.stop ord (Nat.le_refl _) (Nat.le_refl _) whole.1 whole.2,
      bind_some]
    exact applyEffects_releases area
  · simp only [applyEffects, applyEffect, cut addr endAddr range (by omega) (by omega) (Nat.le_refl _) (Nat.le_refl _),
      bind_some]
  · simp only [applyEffects, applyEffect, cut addr area.stop (by omega) (by omega) (Nat.le_refl _) (Nat.le_refl _)
      (by omega), bind_some]
  -- The off of what is left behind the range depends on the file, the range does not.
  all_goals try simp only [applyEffects, applyEffect, cut area.start endAddr (by omega) (Nat.le_refl _) (by omega)
    (by omega) (Nat.le_refl _), bind_some]

theorem munmap_absent {vmas : List VMArea} {addr endAddr : Nat} (ord : Ordered vmas) (range : addr ≤ endAddr)
    (below : endAddr ≤ userMaxAddr)
    (absent : ∀ area ∈ vmas, ∀ pos, area.Has pos → addr ≤ pos → pos < endAddr →
      paging.memory.getPhysicalAddress cr3 pos = 0) :
    applyEffects cr3 paging (vmas.flatMap fun area => (area.carve addr endAddr).effects) = some paging := by
  induction vmas with
  | nil => rfl
  | cons area rest ih =>
    obtain ⟨first, later⟩ := ordered_cons.mp ord
    obtain ⟨absentHere, absentLater⟩ := forall_mem_cons.mp absent
    rw [flatMap_cons, applyEffects_append, carve_absent first range below absentHere, bind_some]
    exact ih later absentLater

theorem applyEffects_pool {effects : List MmEffect} (kinds : ∀ effect ∈ effects, effect.isProt = true)
    (done : applyEffects cr3 paging effects = some paging') : paging'.pool = paging.pool := by
  induction effects generalizing paging with
  | nil =>
    cases done
    rfl
  | cons effect rest ih =>
    obtain ⟨first, later⟩ := forall_mem_cons.mp kinds
    obtain ⟨mid, h, done⟩ := bind_eq_some_iff.mp done
    have eq : mid.pool = paging.pool := by
      cases effect with
      | retain file =>
        cases h
        rfl
      | release file =>
        cases h
        rfl
      | unmapRange start size freePhysical => exact nomatch first
      | updateProt start len prot =>
        obtain ⟨memory, _, rfl⟩ := map_eq_some_iff.mp h
        rfl
    rw [ih later done, eq]

end

section

variable {tables : Descriptors} {cr3 : Nat} {before after : UserSpace}

theorem ProtectRun.ordered {endAddr prot scanAddr : Nat} {vmas vmas' : List VMArea} {effects : List MmEffect}
    (run : ProtectRun endAddr prot scanAddr vmas vmas' effects) (ord : Ordered vmas) :
    Ordered vmas' ∧ ∀ effect ∈ effects, effect.isProt = true := by
  have retains : ∀ area : VMArea, ∀ effect ∈ area.retains, effect.isProt = true := by
    intro area effect mem
    obtain ⟨file, rfl⟩ := mem_retains mem
    rfl
  induction run with
  | leave => exact ⟨ord, forall_mem_nil _⟩
  | split more inner high rest ih =>
    obtain ⟨ordered', kinds⟩ := ih (ord.split (Nat.le_of_lt inner) (Nat.le_of_lt high))
    exact ⟨ordered', forall_mem_append.mpr ⟨retains _, kinds⟩⟩
  | round more high rest ih =>
    obtain ⟨ordered', kinds⟩ := ih (ord.protect prot more).tryMergeNext.1
    refine ⟨ordered', forall_mem_append.mpr ⟨?_, forall_mem_cons.mpr ⟨rfl, kinds⟩⟩⟩
    split
    · exact retains _
    · exact forall_mem_nil _

theorem UserSpace.Absent.munmap {addr length : Nat} {newOk : Nat → Bool} {res : Except Int Unit}
    {vmas' : List VMArea} {effects : List MmEffect} (absent : before.Absent cr3 addr length)
    (ord : Ordered before.space.vmas)
    (ret : Process.munmap before.space.vmas addr length newOk = some (res, vmas', effects)) :
    applyEffects cr3 before.paging effects = some before.paging ∧ Ordered vmas' := by
  rcases munmap_cases ret with ⟨_, rfl, rfl⟩ | ⟨_, _, valid, rfl, rfl⟩
  · exact ⟨rfl, ord⟩
  · refine ⟨?_, ord.munmap _ _⟩
    simp only [isValidUserRange, Bool.and_eq_true, Bool.not_eq_true', decide_eq_false_iff_not, Nat.not_lt] at valid
    exact munmap_absent ord valid.1.2 valid.2 absent

theorem UserSpace.Unmaps.step {call : UserCall} (unmaps : before.Unmaps cr3 call) (ord : Ordered before.space.vmas)
    (ht : before.step tables cr3 call = some after) :
    after.paging.pool = before.paging.pool ∧ Ordered after.space.vmas := by
  cases call with
  | mmap addr length prot flags fd off newOk =>
    obtain ⟨⟨res, space, effects⟩, ret, rfl⟩ := map_eq_some_iff.mp ht
    refine ⟨rfl, ?_⟩
    rcases sysMMap_inv ret with ⟨_, _, rfl, _⟩ | ⟨virtualAddr, backingFile, _, chosen, _, outcome⟩
    · exact ord
    · rcases outcome with ⟨_, _, rfl, _⟩ | ⟨_, _, _, ins, rfl, vmas, _⟩
      · exact ord
      · simp only [vmas]
        exact ord.insertVmaSorted (mmapArea_ordered chosen)
  | munmap addr length newOk =>
    obtain ⟨⟨res, vmas', effects⟩, ret, applied⟩ := bind_eq_some_iff.mp ht
    obtain ⟨paging', done, rfl⟩ := map_eq_some_iff.mp applied
    obtain ⟨nothing, ordered'⟩ := UserSpace.Absent.munmap unmaps ord ret
    rw [nothing] at done
    cases done
    exact ⟨rfl, ordered'⟩
  | mprotect addr len prot newOk =>
    obtain ⟨⟨res, vmas', effects⟩, ret, applied⟩ := bind_eq_some_iff.mp ht
    obtain ⟨paging', done, rfl⟩ := map_eq_some_iff.mp applied
    rcases mprotect_cases ret with ⟨rfl, rfl⟩ | ⟨_, _, _, run⟩
    · cases done
      exact ⟨rfl, ord⟩
    · obtain ⟨ordered', kinds⟩ := run.ordered ord
      exact ⟨applyEffects_pool kinds done, ordered'⟩
  | fault addr write content =>
    obtain ⟨memory', _, rfl⟩ := map_eq_some_iff.mp ht
    exact ⟨rfl, ord⟩
  | store addr value =>
    simp only [UserSpace.step] at ht
    split at ht
    · exact nomatch ht
    · cases ht
      exact ⟨rfl, ord⟩

end

section

variable {initial : Span} {cr3 : Nat → Nat} {state after : KernelState} {nodes spare : List VmaNode}

/-- The pool holds pages of its own only, and the areas of every task are in order. -/
def KernelState.Apart (initial : Span) (state : KernelState) : Prop :=
  (∃ nodes spare, VirtualState.Sound initial state.virtual nodes spare) ∧ ∀ pid, Ordered (state.spaces pid).vmas

theorem KernelState.Apart.step {call : KernelCall} (ne : state.Apart initial) (lt : initial.stop < 2 ^ 53)
    (meets : state.Meets cr3 call) (ht : state.step cr3 call = some after) : after.Apart initial := by
  obtain ⟨⟨nodes, spare, sound⟩, ord⟩ := ne
  cases call with
  | virtual op =>
    obtain ⟨virtual', hs, rfl⟩ := map_eq_some_iff.mp ht
    obtain ⟨next, nodes', spare', stepped', sound'⟩ := sound.next lt meets.1
    rw [hs] at stepped'
    cases stepped'
    exact ⟨⟨nodes', spare', sound'⟩, ord⟩
  | user pid tables call =>
    obtain ⟨space, hs, rfl⟩ := map_eq_some_iff.mp ht
    obtain ⟨pool, ordered'⟩ := (meets.2 pid tables call rfl).step (ord pid) hs
    refine ⟨⟨nodes, spare, ?_⟩, ?_⟩
    · simp only [pool]
      exact sound
    · intro other
      by_cases eq : other = pid
      · grind
      · grind

/-- While a node is left, unmapping an address outside the pool leaves the free list alone exactly if
nothing is mapped there: otherwise its page becomes free. -/
theorem unmapPage_pool {root page : Nat} {memory : PageMemory} {pool : VirtualPool}
    (layout : Layout pool nodes spare) (separated : Separated (nodes.map pool.region))
    (fits : ∀ node ∈ nodes, (pool.region node).stop < 2 ^ 53) (positive : 0 < page) (bound : page < 2 ^ 52)
    (out : ¬ Library.Covered (nodes.map pool.region) page) (left : pool.freeNodesList ≠ none) :
    (∃ removed memory', Paging.unmapPage ⟨memory, pool⟩ root (page * pageSize) = some (removed, ⟨memory', pool⟩)) ↔
      (memory.unmapEntry root (page * pageSize)).1 = false := by
  have number : page * pageSize / pageSize = page := Nat.mul_div_cancel _ (by decide)
  have named : page * pageSize ≠ 0 := Nat.mul_ne_zero (Nat.ne_of_gt positive) (by decide)
  unfold Paging.unmapPage
  cases unmapped : memory.unmapEntry root (page * pageSize) with
  | mk removed memory' =>
    cases removed with
    | false => exact ⟨fun _ => rfl, fun _ => ⟨false, memory', rfl⟩⟩
    | true =>
      refine ⟨?_, fun absent => nomatch absent⟩
      rintro ⟨_, _, done⟩
      obtain ⟨⟨pool', logged⟩, freed, eq⟩ := map_eq_some_iff.mp done
      cases eq
      rcases virtualFreePages_cases layout separated named Nat.one_ne_zero (fun node mem => by
          have := fits node mem
          omega) (by omega) with
        ⟨_, exhausted⟩ | ⟨before, behind, pool', nodes', spare', split, below, above, freed', layout', regions⟩
      · have spares := layout.spares
        rw [exhausted] at spares
        exact absurd spares left
      · rw [freed] at freed'
        cases freed'
        rw [layout'.regions.unique layout.regions] at regions
        rw [number] at below above regions
        rw [split] at separated
        have only : ∀ pos, (Span.mk page 1).Has pos → ¬ Library.Covered (before ++ behind) pos := by
          intro pos has
          have isPage : pos = page := by
            simp only [Span.Has, Span.stop] at has
            omega
          rw [isPage, ← split]
          exact out
        obtain ⟨leftApart, rightApart⟩ := separated.placed Nat.one_pos only below above
        obtain ⟨_, covers⟩ := separated.insertSpan Nat.one_pos leftApart rightApart
        rw [← regions] at covers
        exact absurd ((covers page).mpr (.inl ⟨Nat.le_refl _, Nat.lt_succ_self _⟩)) out

end

/-- In every run in which `Sys_Munmap` finds no resident page, a served kernel request gets pages of the
pool that nobody holds. In every state reached, `UnmapPage` of an address outside the pool leaves the pool
alone exactly if nothing is mapped there, unless the nodes of the free list have run out. -/
theorem pool_apart_from_user_memory (kernelVirtEnd : UInt64) (memmap : Option (List BootMemRegion))
    (fits : MemmapFits memmap) (cr3 : Nat → Nat) (memory : PageMemory) (spaces : Nat → AddressSpace)
    (ordered : ∀ pid, Ordered (spaces pid).vmas) (state : KernelState)
    (reached : Reaches (KernelState.step cr3) (KernelState.Meets cr3)
      (KernelState.boot kernelVirtEnd.toNat memmap memory spaces) state) :
    (∀ (count : UInt64) (addr : Nat) (pool : VirtualPool), state.virtual.Addressable count.toNat →
      virtualAllocPages state.virtual.pool count.toNat = some (addr, pool) → addr ≠ 0 →
      ∀ page ∈ pageRange addr count.toNat,
        (initialPages kernelVirtEnd.toNat memmap).Has page ∧ page ∉ state.virtual.live) ∧
    ∀ pid page, 0 < page → page < 2 ^ 52 → ¬ (initialPages kernelVirtEnd.toNat memmap).Has page →
      state.virtual.pool.freeNodesList ≠ none →
      ((∃ removed memory', Paging.unmapPage ⟨state.memory, state.virtual.pool⟩ (cr3 pid) (page * pageSize) =
        some (removed, ⟨memory', state.virtual.pool⟩)) ↔
        (state.memory.unmapEntry (cr3 pid) (page * pageSize)).1 = false) := by
  have lt := initialPages_stop_lt kernelVirtEnd.toNat fits
  have ne : state.Apart (initialPages kernelVirtEnd.toNat memmap) :=
    reached.invariant (KernelState.Apart _) ⟨VirtualState.boot_sound fits, ordered⟩
      fun _ _ _ ne meets ht => ne.step lt meets ht
  obtain ⟨⟨nodes, spare, sound⟩, _⟩ := ne
  constructor
  · intro count addr pool addressable served named page inRange
    cases sound.alloc lt addressable with
    | inl refused =>
      rw [refused] at served
      exact absurd (congrArg Prod.fst (Option.some.inj served)).symm named
    | inr outcome =>
      obtain ⟨addr', pool', _, _, served', _, ht, _⟩ := outcome
      rw [served'] at served
      cases served
      obtain ⟨free, notLive⟩ := ht page inRange
      exact ⟨sound.inside page (.inl free), notLive⟩
  · intro pid page pos bound out left
    apply unmapPage_pool sound.layout sound.separated _ pos bound _ left
    · intro node mem
      exact Nat.lt_of_le_of_lt (sound.toPartitioned.stop_le node mem) lt
    · intro free
      exact out (sound.inside page (.inl free))

/-- One task with an empty top-level table at `0x100000`, on a machine with 512 MB. -/
def oneTask : KernelState := KernelState.boot (0xffffffff80400000 : UInt64).toNat smallMemmap
  ⟨⟨fun byte => if byte = 0 then 1 else 0, fun _ => 0⟩, fun _ _ => 0, []⟩
  fun _ => execveSpace 0x400000 0x401000 fun _ => true

def mapOne : KernelCall := .user 0 noDescriptors (.mmap 0 0x1000 3 0x22 0 0 fun _ => true)

def unmapOne : KernelCall := .user 0 noDescriptors (.munmap 0x200000000 0x1000 fun _ => true)

theorem oneTask_ordered : ∀ _ : Nat, Ordered (execveSpace 0x400000 0x401000 fun _ => true).vmas := by
  intro _ area mem
  have each : ∀ area ∈ (execveSpace 0x400000 0x401000 fun _ => true).vmas, area.start ≤ area.stop := by decide
  exact each area mem

def mappedTask : KernelState := { oneTask with
  spaces := Function.update oneTask.spaces 0
    ⟨[⟨0x400000, 0x401000, 7, 2, none, 0⟩, ⟨0x200000000, 0x200001000, 3, 0x22, none, 0⟩,
      ⟨0x7FFFFFFF6000, 0x7FFFFFFFE000, 3, 0x22, none, 0⟩], 0x200001000⟩ }

theorem oneTask_mapOne : oneTask.step (fun _ => 0x100000) mapOne = some mappedTask := by
  have called : sysMMap noDescriptors (oneTask.spaces 0) (0 : UInt64).toNat (0x1000 : UInt64).toNat (3 : UInt64).toNat
      (0x22 : UInt64).toNat (0 : UInt64).toNat (0 : UInt64).toNat (fun _ => true) =
      some (.ok 0x200000000, mappedTask.spaces 0, []) := by
    decide +kernel
  rfl

theorem pool_apart_from_user_memory_untouched :
    ∃ state, Reaches (KernelState.step fun _ => 0x100000) (KernelState.Meets fun _ => 0x100000) oneTask state ∧
      ∃ addr pool, virtualAllocPages state.virtual.pool (1 : UInt64).toNat = some (addr, pool) ∧ addr ≠ 0 ∧
        ∀ page ∈ pageRange addr (1 : UInt64).toNat,
          (initialPages (0xffffffff80400000 : UInt64).toNat smallMemmap).Has page ∧ page ∉ state.virtual.live := by
  have isUser : ∀ {state : KernelState} {call : UserCall}, (state.user 0).Unmaps 0x100000 call →
      state.Meets (fun _ => 0x100000) (.user 0 noDescriptors call) := by
    intro state call unmaps
    refine ⟨trivial, fun pid tables user eq => ?_⟩
    cases eq
    exact unmaps
  -- The top-level table is empty, so nothing is resident.
  have absent : (mappedTask.user 0).Unmaps 0x100000 (.munmap 0x200000000 0x1000 fun _ => true) := by
    intro area _ pos _ _ _
    have empty : (mappedTask.user 0).paging.memory.words 0x100000 (tableIndex 3 pos) = 0 := rfl
    simp [PageMemory.getPhysicalAddress, empty, Memory.present]
  have unmapped : (mappedTask.step (fun _ => 0x100000) unmapOne).isSome := by decide +kernel
  obtain ⟨state, hs⟩ := isSome_iff_exists.mp unmapped
  have hr : Reaches (KernelState.step fun _ => 0x100000) (KernelState.Meets fun _ => 0x100000) oneTask state :=
    .next unmapOne (.next mapOne .start (isUser trivial) oneTask_mapOne) (isUser absent) hs
  have pool : state.virtual = oneTask.virtual := by
    have called : ((mappedTask.user 0).step noDescriptors 0x100000 (.munmap 0x200000000 0x1000 fun _ => true)).map
        (fun after => KernelState.mk { mappedTask.virtual with pool := after.paging.pool } after.paging.memory
          (Function.update mappedTask.spaces 0 after.space)) = some state := hs
    obtain ⟨after, ht, rfl⟩ := map_eq_some_iff.mp called
    have ord : Ordered (mappedTask.user 0).space.vmas := by
      have each : ∀ area ∈ (mappedTask.spaces 0).vmas, area.start ≤ area.stop := by decide
      exact each
    simp only [(absent.step ord ht).1]
    rfl
  have served : (virtualAllocPages oneTask.virtual.pool (1 : UInt64).toNat).map Prod.fst = some 0xffffffff80400000 := by
    decide +kernel
  obtain ⟨⟨addr, pool'⟩, served, eq⟩ := map_eq_some_iff.mp served
  rw [← pool] at served
  have named : addr ≠ 0 := by
    rw [show addr = 0xffffffff80400000 from eq]
    decide
  have inPool := (pool_apart_from_user_memory 0xffffffff80400000 smallMemmap smallMemmap_fits (fun _ => 0x100000) _ _
    oneTask_ordered state hr).1 1 addr pool' (pool ▸ addressable_small) served named
  exact ⟨state, hr, addr, pool', served, named, inPool⟩

/-- A page that was touched and unmapped is the next page that the kernel gets. -/
theorem user_page_handed_to_kernel :
    ¬ ∀ (kernelVirtEnd : UInt64) (memmap : Option (List BootMemRegion)) (cr3 : Nat → Nat) (memory : PageMemory)
        (spaces : Nat → AddressSpace) (state : KernelState), MemmapFits memmap → (∀ pid, Ordered (spaces pid).vmas) →
      Reaches (KernelState.step cr3) (fun state call => ∀ op, call = .virtual op → state.virtual.Called op)
        (KernelState.boot kernelVirtEnd.toNat memmap memory spaces) state →
      ∀ (count : UInt64) (addr : Nat) (pool : VirtualPool),
        virtualAllocPages state.virtual.pool count.toNat = some (addr, pool) → addr ≠ 0 →
        ∀ page ∈ pageRange addr count.toNat,
          (initialPages kernelVirtEnd.toNat memmap).Has page ∧ page ∉ state.virtual.live := by
  intro claimed
  have run : ((oneTask.step (fun _ => 0x100000) mapOne).bind fun mapped =>
      (mapped.step (fun _ => 0x100000) (.user 0 noDescriptors (.fault 0x200000000 true fun _ => 0))).bind fun touched =>
        (touched.step (fun _ => 0x100000) unmapOne).bind fun state =>
          (virtualAllocPages state.virtual.pool (1 : UInt64).toNat).map Prod.fst) = some 0x200000000 := by
    decide +kernel
  obtain ⟨mapped, first, rest⟩ := bind_eq_some_iff.mp run
  obtain ⟨touched, snd, rest⟩ := bind_eq_some_iff.mp rest
  obtain ⟨state, third, rest⟩ := bind_eq_some_iff.mp rest
  obtain ⟨⟨addr, pool⟩, served, eq⟩ := map_eq_some_iff.mp rest
  cases eq
  have userCall : ∀ {state : KernelState} {pid : Nat} {tables : Descriptors} {call : UserCall} (op : VirtualOp),
      KernelCall.user pid tables call = .virtual op → state.virtual.Called op := fun _ eq => nomatch eq
  have inPool := claimed 0xffffffff80400000 smallMemmap (fun _ => 0x100000) _ _ state smallMemmap_fits oneTask_ordered
    (.next unmapOne (.next _ (.next mapOne .start userCall first) userCall snd) userCall third) 1 _ pool served (by decide)
    0x200000 (by constructor <;> decide)
  exact absurd inPool.1.1 (by decide)

end RosKernel.Process
