import RosKernel.Memory.VirtualOwnership
import RosKernel.Process.Residency

/-! Where the pages of shared memory and of the framebuffer lie.

`Sys_MMap` compares the end of the requested part of a region with the region's size in
wrapping arithmetic, and does not look at the size of the framebuffer at all. With
offsets that are whole pages and do not wrap, and with stretches of framebuffer no longer
than the framebuffer, a page fault installs only pages of the region, or of the
framebuffer, whatever was unmapped or split in between.
-/

set_option autoImplicit false

namespace RosKernel.Process

open Library Memory Option

def ShmRegion.bytes (region : ShmRegion) : Nat := region.sizeInPages * pageSize

/-- `pitch * height`, rounded up to a page. -/
def Framebuffer.bytes (framebuffer : Framebuffer) : Nat := (framebuffer.pitch * framebuffer.height + 4095) / 4096 * 4096

def File.isFramebuffer (file : File) : Prop := file.type ≠ .shm ∧ file.fileName = framebufferName

/-- The page at `frame` is one of the pages from `base` on. -/
structure HoldsPage (base size frame : Nat) : Prop where
  aligned : frame % pageSize = 0
  low : base ≤ frame
  high : frame + pageSize ≤ base + size

/-- The region behind a file of shared memory. -/
def Descriptors.region (tables : Descriptors) (id : FileId) : ShmRegion := tables.regions (tables.files id).privateData

/-- A frame of shared memory or of the framebuffer. -/
def SharedFrame (tables : Descriptors) (frame : Nat) : Prop :=
  (∃ id, (tables.files id).type = .shm ∧ HoldsPage (tables.region id).physAddr (tables.region id).bytes frame) ∨
    ∃ framebuffer, tables.framebuffer = some framebuffer ∧ HoldsPage framebuffer.address framebuffer.bytes frame

/-- The frame that may stand behind a page, by the page's backing. -/
def Backs (tables : Descriptors) : Option (FileId × Nat) → Nat → Prop
  | none, frame => ¬ SharedFrame tables frame
  | some (id, _), frame =>
    ((tables.files id).type = .shm → HoldsPage (tables.region id).physAddr (tables.region id).bytes frame) ∧
      ((tables.files id).isFramebuffer → ∃ framebuffer, tables.framebuffer = some framebuffer ∧
        HoldsPage framebuffer.address framebuffer.bytes frame)

/-- The frames of a region are those that `SharedMemoryManager::Open` got from the allocator. -/
def ShmRegion.Allocated (region : ShmRegion) : Prop :=
  region.physAddr ≠ 0 ∧ ∃ maps maps', physicalAllocPages maps region.sizeInPages = (region.physAddr, maps')

structure Placed (tables : Descriptors) : Prop where
  regions : ∀ id, (tables.files id).type = .shm → (tables.region id).Allocated
  aligned : ∀ framebuffer, tables.framebuffer = some framebuffer → framebuffer.address % pageSize = 0
  nonzero : ∀ framebuffer, tables.framebuffer = some framebuffer → 0 < framebuffer.address
  below : ∀ framebuffer, tables.framebuffer = some framebuffer → framebuffer.address + framebuffer.bytes ≤ 2 ^ 52

section

variable {tables : Descriptors}

theorem ShmRegion.Allocated.place {region : ShmRegion} (alloc : region.Allocated) :
    region.physAddr % pageSize = 0 ∧ 0 < region.physAddr ∧ region.physAddr + region.bytes ≤ 2 ^ 52 := by
  obtain ⟨nz, maps, maps', ht⟩ := alloc
  rcases physicalAllocPages_cases maps region.sizeInPages with ⟨refused, _⟩ | ⟨start, _, ⟨bound, _⟩, _, served⟩
  · grind
  · rw [served] at ht
    have addr := (congrArg Prod.fst ht).symm
    simp only [physBase, pageSize, physFrames, ShmRegion.bytes] at addr bound ⊢
    omega

theorem SharedFrame.mappable {frame : Nat} (placed : Placed tables) (isShared : SharedFrame tables frame) :
    Mappable frame ∧ frame ≠ 0 := by
  rcases isShared with ⟨id, isShm, hal, low, high⟩ | ⟨framebuffer, there, hal, low, high⟩
  · obtain ⟨_, pos, below⟩ := (placed.regions id isShm).place
    simp only [pageSize] at high
    exact ⟨⟨hal, by omega⟩, by omega⟩
  · have pos := placed.nonzero framebuffer there
    have below := placed.below framebuffer there
    simp only [pageSize] at high
    exact ⟨⟨hal, by omega⟩, by omega⟩

end

/-- No stretch of addresses shows more consecutive bytes of the framebuffer than it has. -/
def FramebufferFits (tables : Descriptors) (vmas : List VMArea) : Prop :=
  ∀ framebuffer, tables.framebuffer = some framebuffer → ∀ id, (tables.files id).isFramebuffer →
    ∀ start count offset, (∀ k, k < count → Maps vmas (start + k) (some (id, add64 offset k))) →
      count ≤ framebuffer.bytes

/-- Offsets into shared memory are whole pages and do not wrap, the framebuffer is mapped within its
size, and `SetFlags` finds no entry. -/
def UserSpace.Meets (tables : Descriptors) (cr3 : Nat) (state : UserSpace) : UserCall → Prop
  | .mmap addr length prot flags fd offset _ =>
    length.toNat ≤ 2 ^ 64 - 4096 ∧
      ∀ id, flags.toNat &&& 0x20 = 0 → tables.fdTable fd.toNat = some id →
        ((tables.files id).type = .shm →
          offset.toNat % pageSize = 0 ∧ offset.toNat + (length.toNat + 4095) / 4096 * 4096 < 2 ^ 64) ∧
        ((tables.files id).isFramebuffer → ∀ virtualAddr,
          mmapAddress state.space.vmas state.space.mmapNextAddr addr.toNat length.toNat = some (.ok virtualAddr) →
          FramebufferFits tables
            (mmapArea virtualAddr length.toNat prot.toNat flags.toNat (some id) offset.toNat :: state.space.vmas))
  | .mprotect addr len _ _ =>
    NoEntryAtCr3 state.paging.memory cr3 addr.toNat (add64 addr.toNat (pageAlign len.toNat))
  | _ => True

structure UserSpace.Contained (tables : Descriptors) (cr3 : Nat) (state : UserSpace) : Prop where
  resident : state.Resident (· = cr3) (SharedFrame tables) (Backs tables) cr3
  offsets : ∀ pos id offset, Maps state.space.vmas pos (some (id, offset)) → (tables.files id).type = .shm →
    offset < (tables.region id).bytes ∧ offset % pageSize = pos % pageSize
  stretches : FramebufferFits tables state.space.vmas

section

variable {tables : Descriptors} {cr3 : Nat} {state after : UserSpace}

theorem UserSpace.Contained.target {area : VMArea} {page physAddr : Nat} (contained : state.Contained tables cr3)
    (placed : Placed tables) (mem : area ∈ state.space.vmas) (has : area.Has page) (hal : page % pageSize = 0)
    (hf : faultTarget tables area page = some (some physAddr)) :
    SharedFrame tables physAddr ∧ Backs tables (area.source page) physAddr := by
  have proper := contained.resident.good.1.proper area mem
  have below := proper.below
  simp only [userMaxAddr] at below
  have pageSmall : page < 2 ^ 64 := by
    have := has.2
    omega
  unfold faultTarget at hf
  cases backing : area.backingFile with
  | none =>
    rw [backing] at hf
    cases hf
  | some id =>
    rw [backing] at hf
    have source : ∀ pos, area.source pos = some (id, add64 area.fileOffset (sub64 pos area.start)) := by
      intro pos
      rw [VMArea.source, backing, map_some]
    simp only at hf
    split at hf
    next isShm =>
      obtain ⟨regionAligned, _, regionBelow⟩ := (placed.regions id isShm).place
      obtain ⟨hin, offsetAligned⟩ := contained.offsets page id _ ⟨area, mem, has, source page⟩ isShm
      have whole : (tables.region id).bytes % pageSize = 0 := Nat.mul_mod_left _ _
      have addr : physAddr = (tables.region id).physAddr + add64 area.fileOffset (sub64 page area.start) := by
        have := some.inj (some.inj hf)
        simp only [Descriptors.region] at hin regionBelow ⊢
        simp only [add64] at this hin ⊢
        omega
      have holds : HoldsPage (tables.region id).physAddr (tables.region id).bytes physAddr := by
        simp only [pageSize] at *
        constructor
        · simp only [pageSize]
          omega
        · omega
        · simp only [pageSize]
          omega
      refine ⟨.inl ⟨id, isShm, holds⟩, ?_⟩
      rw [source]
      exact ⟨fun _ => holds, fun isFramebuffer => absurd isShm isFramebuffer.1⟩
    next notShm =>
      split at hf
      next isName =>
        obtain ⟨framebuffer, there, eq⟩ := map_eq_some_iff.mp hf
        -- The whole area is one stretch of the framebuffer.
        have fits := contained.stretches framebuffer there id ⟨notShm, isName⟩ area.start (area.stop - area.start)
          area.fileOffset (by
            intro k lt
            refine ⟨area, mem, ⟨by omega, by omega⟩, ?_⟩
            rw [source, sub64_eq (by omega) (by omega), Nat.add_sub_cancel_left])
        have startAligned := proper.startAligned
        have stopAligned := proper.stopAligned
        have bufferAligned := placed.aligned framebuffer there
        have bufferBelow := placed.below framebuffer there
        have addr : physAddr = framebuffer.address + (page - area.start) := by
          rw [← some.inj eq, sub64_eq has.1 pageSmall, add64_eq]
          have := has.2
          omega
        have holds : HoldsPage framebuffer.address framebuffer.bytes physAddr := by
          have := has.1
          have := has.2
          simp only [pageSize] at *
          constructor
          · simp only [pageSize]
            omega
          · omega
          · simp only [pageSize]
            omega
        refine ⟨.inr ⟨framebuffer, there, holds⟩, ?_⟩
        rw [source]
        exact ⟨fun isShm => absurd isShm notShm, fun _ => ⟨framebuffer, there, holds⟩⟩
      · cases hf

theorem backs_of_new {area : VMArea} {page frame : Nat} (new : faultTarget tables area page = some none)
    (notShared : ¬ SharedFrame tables frame) : Backs tables (area.source page) frame := by
  unfold faultTarget at new
  unfold VMArea.source
  cases backing : area.backingFile with
  | none => exact notShared
  | some id =>
    rw [backing] at new
    simp only at new
    split at new
    · exact nomatch new
    next notShm =>
      split at new
      next =>
        obtain ⟨_, _, eq⟩ := map_eq_some_iff.mp new
        exact nomatch eq
      next notName => exact ⟨fun isShm => absurd isShm notShm, fun isBuffer => absurd isBuffer.2 notName⟩

theorem mmapBacking_cases {flags fd off pages : Nat} {backingFile : Option FileId} {ht : List MmEffect}
    (accepted : mmapBacking tables flags fd off pages = .ok (backingFile, ht)) :
    backingFile = none ∨ ∃ id, backingFile = some id ∧ flags &&& 0x20 = 0 ∧ tables.fdTable fd = some id ∧
      ((tables.files id).type = .shm →
        add64 off (mul64 pages pageSize) ≤ mul64 (tables.region id).sizeInPages pageSize) := by
  unfold mmapBacking at accepted
  split at accepted
  · cases accepted
    exact .inl rfl
  next notAnonymous =>
    split at accepted
    · exact nomatch accepted
    · split at accepted
      · exact nomatch accepted
      next id descriptor =>
        have flag : flags &&& 0x20 = 0 := by simpa using notAnonymous
        simp only at accepted
        split at accepted
        · split at accepted
          · exact nomatch accepted
          next fits =>
            cases accepted
            exact .inr ⟨id, rfl, flag, descriptor, fun _ => Nat.le_of_not_lt fits⟩
        next notShm =>
          split at accepted
          · split at accepted
            · exact nomatch accepted
            · grind
          · grind

theorem shm_offset {id : FileId} {virtualAddr length off pos : Nat} (placed : Placed tables)
    (isShm : (tables.files id).type = .shm) (rounds : length ≤ 2 ^ 64 - 4096) (virtAligned : virtualAddr % pageSize = 0)
    (checked : add64 off (mul64 (sub64 (add64 length pageSize) 1 / pageSize) pageSize) ≤
      mul64 (tables.region id).sizeInPages pageSize)
    (hal : off % pageSize = 0) (unwrapped : off + (length + 4095) / 4096 * 4096 < 2 ^ 64)
    (low : virtualAddr ≤ pos) (high : pos < virtualAddr + (length + 4095) / 4096 * 4096) (lt : pos < 2 ^ 64) :
    add64 off (sub64 pos virtualAddr) < (tables.region id).bytes ∧
      add64 off (sub64 pos virtualAddr) % pageSize = pos % pageSize := by
  have below := (placed.regions id isShm).place.2.2
  have size : mul64 (tables.region id).sizeInPages pageSize = (tables.region id).bytes :=
    mul64_eq (show (tables.region id).bytes < 2 ^ 64 by omega)
  rw [mmapPages_eq rounds, add64_eq unwrapped, size] at checked
  rw [sub64_eq low lt, add64_eq (by omega)]
  simp only [pageSize] at *
  omega

section

variable (contained : state.Contained tables cr3) (placed : Placed tables)
include contained placed

theorem UserSpace.Contained.mmap {addr length prot flags fd offset : UInt64} {newOk : Nat → Bool}
    (meets : state.Meets tables cr3 (.mmap addr length prot flags fd offset newOk))
    (ht : state.step tables cr3 (.mmap addr length prot flags fd offset newOk) = some after) : after.Contained tables cr3 := by
  obtain ⟨⟨order, ⟨wf, lt⟩, backed⟩, offsets, stretches⟩ := contained
  obtain ⟨rounds, files⟩ := meets
  obtain ⟨⟨res, space', effects⟩, ret, rfl⟩ := map_eq_some_iff.mp ht
  rcases sysMMap_cases wf lt addr.toNat_lt rounds ret with
    ⟨_, _, rfl⟩ | ⟨virtualAddr, backingFile, rfl, backing, fits, positive, ins, bounded⟩
  · exact ⟨⟨order, ⟨wf, lt⟩, backed⟩, offsets, stretches⟩
  · have insertion := fits.inserted prot.toNat flags.toNat offset.toNat backingFile positive rounds wf
    rw [← ins] at insertion
    have maps := insertion.maps
    refine ⟨⟨order, ⟨insertion.shape, bounded⟩, ?_⟩, ?_, ?_⟩
    · intro page frame h hr
      obtain ⟨source, mapped, isBacked⟩ := backed page frame h hr
      exact ⟨source, (maps page source).mpr (maps_cons.mpr (.inr mapped)), isBacked⟩
    · intro pos id off mapped isShm
      cases maps_cons.mp ((maps pos _).mp mapped) with
      | inr old => exact offsets pos id off old isShm
      | inl new =>
        obtain ⟨has, source⟩ := new
        obtain ⟨file, backs, eq⟩ := map_eq_some_iff.mp source
        cases eq
        rcases mmapBacking_cases backing with none_ | ⟨id', isFile, flag, descriptor, checked⟩
        · exact nomatch none_.symm.trans backs
        · obtain rfl : id' = id := some.inj (isFile.symm.trans backs)
          obtain ⟨hal, unwrapped⟩ := (files id' flag descriptor).1 isShm
          have below := fits.below
          have high := has.2
          simp only [userMaxAddr] at below high
          exact shm_offset placed isShm rounds fits.aligned (checked isShm) hal unwrapped has.1 high (by omega)
    · intro framebuffer there id isBuffer start count off shown
      rcases mmapBacking_cases backing with none_ | ⟨id', isFile, flag, descriptor, _⟩
      · apply stretches framebuffer there id isBuffer start count off
        intro k hin
        cases maps_cons.mp ((maps _ _).mp (shown k hin)) with
        | inr old => exact old
        | inl new =>
          rw [VMArea.source, none_] at new
          cases new.2
      · by_cases eq : id' = id
        · -- The new area shows the framebuffer itself: this is what the condition is about.
          subst eq
          have fitting := (files id' flag descriptor).2 isBuffer virtualAddr (sysMMap_chosen ret)
          apply fitting framebuffer there id' isBuffer start count off
          intro k hin
          rw [mmapArea_eq fits rounds, ← isFile]
          exact (maps _ _).mp (shown k hin)
        · apply stretches framebuffer there id isBuffer start count off
          intro k hin
          cases maps_cons.mp ((maps _ _).mp (shown k hin)) with
          | inr old => exact old
          | inl new =>
            rw [VMArea.source, isFile] at new
            exact absurd (congrArg Prod.fst (some.inj new.2)) eq

theorem UserSpace.Contained.fault {addr : Nat} {write : Bool} {content : Nat → Nat} {memory' : PageMemory}
    (handled : pageFaultHandler tables cr3 state.space.vmas state.paging.memory addr (faultCode state.paging.memory cr3 addr write) content = some memory') :
    ∃ area ∈ state.space.vmas, area.Has addr ∧ area.Has (pageMask addr) ∧ UserPage (pageMask addr) ∧
      Resolved tables (· = cr3) (SharedFrame tables) cr3 area (pageMask addr) state.paging.memory memory' := by
  have wf := contained.resident.good.1
  have page : ∀ area ∈ state.space.vmas, area.Has addr → area.Has (pageMask addr) ∧ UserPage (pageMask addr) := by
    intro area mem has
    have proper := wf.proper area mem
    obtain ⟨user, low, high⟩ := userPage_pageMask (Nat.lt_of_lt_of_le has.2 proper.below)
    refine ⟨?_, user⟩
    have := proper.startAligned
    have := user.aligned
    simp only [VMArea.Has, pageSize] at *
    omega
  obtain ⟨area, mem, has, resolved⟩ := pageFaultHandler_resolved contained.resident.order.tree
    contained.resident.order.nonzero rfl (fun area mem => (wf.proper area mem).below)
    (fun area mem has physAddr hf => by
      obtain ⟨hasPage, user⟩ := page area mem has
      have isShared := (contained.target placed mem hasPage user.aligned hf).1
      exact ⟨isShared, (isShared.mappable placed).1⟩)
    handled
  obtain ⟨hasPage, user⟩ := page area mem has
  exact ⟨area, mem, has, hasPage, user, resolved⟩

theorem UserSpace.Contained.step {call : UserCall} (meets : state.Meets tables cr3 call)
    (ht : state.step tables cr3 call = some after) : after.Contained tables cr3 := by
  cases call with
  | mmap addr length prot flags fd off newOk => exact contained.mmap placed meets ht
  | munmap addr length newOk =>
    obtain ⟨⟨res, vmas', effects⟩, ret, applied⟩ := bind_eq_some_iff.mp ht
    obtain ⟨paging', done, rfl⟩ := map_eq_some_iff.mp applied
    obtain ⟨paging'', done', resident, outcome⟩ :=
      contained.resident.munmap rfl (fun _ isBacked => isBacked) ret
    rw [done] at done'
    cases done'
    have fewer : ∀ pos source, Maps vmas' pos source → Maps state.space.vmas pos source := by
      intro pos source mapped
      rcases outcome with ⟨_, eq, _⟩ | ⟨_, _, maps, _⟩
      · rwa [← eq]
      · exact ((maps pos source).mp mapped).1
    refine ⟨resident, ?_, ?_⟩
    · intro pos id off mapped
      exact contained.offsets pos id off (fewer _ _ mapped)
    · intro framebuffer there id isBuffer start count off shown
      exact contained.stretches framebuffer there id isBuffer start count off fun k hin => fewer _ _ (shown k hin)
  | mprotect addr len prot newOk =>
    obtain ⟨⟨res, vmas', effects⟩, ret, applied⟩ := bind_eq_some_iff.mp ht
    obtain ⟨paging', done, rfl⟩ := map_eq_some_iff.mp applied
    obtain ⟨wf, lt⟩ := contained.resident.good
    obtain rfl := mprotect_unchanged wf meets ret done
    obtain ⟨wf', maps⟩ := mprotect_maps wf ret
    refine ⟨⟨contained.resident.order, ⟨wf', lt⟩, ?_⟩, ?_, ?_⟩
    · intro page frame h hr
      obtain ⟨source, mapped, isBacked⟩ := contained.resident.backed page frame h hr
      exact ⟨source, (maps page source).mpr mapped, isBacked⟩
    · intro pos id off mapped
      exact contained.offsets pos id off ((maps _ _).mp mapped)
    · intro framebuffer there id isBuffer start count off shown
      apply contained.stretches framebuffer there id isBuffer start count off
      intro k hin
      exact (maps _ _).mp (shown k hin)
  | fault addr write content =>
    obtain ⟨memory', handled, rfl⟩ := map_eq_some_iff.mp ht
    obtain ⟨area, mem, has, hasPage, user, resolved⟩ := contained.fault placed handled
    refine ⟨contained.resident.resolve rfl mem has resolved ?_ ?_, contained.offsets, contained.stretches⟩
    · intro frame hf
      exact (contained.target placed mem hasPage user.aligned hf).2
    · intro frame new notShared
      exact backs_of_new new notShared
  | store addr value =>
    simp only [UserSpace.step] at ht
    split at ht
    · exact nomatch ht
    next valid =>
      cases ht
      rw [not_or, Nat.not_le] at valid
      obtain ⟨tree, eq⟩ := contained.resident.store rfl valid.1 valid.2 (addr.toNat % pageSize / 8) value
      exact ⟨contained.resident.sameLeaves rfl tree eq, contained.offsets, contained.stretches⟩

end

end

/-- The fault maps a page of the range from `base` on, by the address it hands to `MapPages`. -/
def InstallsIn (cr3 page : Nat) (area : VMArea) (memory memory' : PageMemory) (base size : Nat) : Prop :=
  ∃ physAddr, memory' = (memory.mapPages cr3 physAddr page 1 (mapFlags area)).2 ∧
    memory'.getPhysicalAddress cr3 page = physAddr ∧ HoldsPage base size physAddr

/-- Every page fault that is resolved in a mapping of shared memory installs a page of its region,
and in a mapping of the framebuffer one of the framebuffer. -/
def UserSpace.InstallsShared (tables : Descriptors) (cr3 : Nat) (state : UserSpace) : Prop :=
  ∀ (addr : UInt64) (write : Bool) (content : Nat → Nat) (memory' : PageMemory),
    pageFaultHandler tables cr3 state.space.vmas state.paging.memory addr.toNat
      (faultCode state.paging.memory cr3 addr.toNat write) content = some memory' →
    ∃ area ∈ state.space.vmas, area.Has addr.toNat ∧ ∀ id, area.backingFile = some id →
      ((tables.files id).type = .shm → InstallsIn cr3 (pageMask addr.toNat) area state.paging.memory memory'
        (tables.region id).physAddr (tables.region id).bytes) ∧
      ((tables.files id).isFramebuffer → ∃ framebuffer, tables.framebuffer = some framebuffer ∧
        InstallsIn cr3 (pageMask addr.toNat) area state.paging.memory memory' framebuffer.address framebuffer.bytes)

theorem UserSpace.Contained.installs {tables : Descriptors} {cr3 : Nat} {state : UserSpace}
    (contained : state.Contained tables cr3) (placed : Placed tables) : state.InstallsShared tables cr3 := by
  intro addr write content memory' handled
  obtain ⟨area, mem, has, hasPage, user, resolved⟩ := contained.fault placed handled
  refine ⟨area, mem, has, ?_⟩
  intro id backing
  obtain ⟨frame, walks, how⟩ := resolved.mapped
  have installed : memory'.getPhysicalAddress cr3 (pageMask addr.toNat) = frame := by
    rw [resolved.tree.getPhysicalAddress rfl user.small user.aligned, walks cr3 _ rfl user.path rfl, if_pos ⟨rfl, rfl⟩,
      getD_some]
  have source : area.source (pageMask addr.toNat) =
      some (id, add64 area.fileOffset (sub64 (pageMask addr.toNat) area.start)) := by
    rw [VMArea.source, backing, map_some]
  have backs : memory' = (state.paging.memory.mapPages cr3 frame (pageMask addr.toNat) 1 (mapFlags area)).2 →
      Backs tables (area.source (pageMask addr.toNat)) frame →
      ((tables.files id).type = .shm → InstallsIn cr3 (pageMask addr.toNat) area state.paging.memory memory'
        (tables.region id).physAddr (tables.region id).bytes) ∧
      ((tables.files id).isFramebuffer → ∃ framebuffer, tables.framebuffer = some framebuffer ∧
        InstallsIn cr3 (pageMask addr.toNat) area state.paging.memory memory' framebuffer.address framebuffer.bytes) := by
    intro handed isBacked
    rw [source] at isBacked
    constructor
    · intro isShm
      exact ⟨frame, handed, installed, isBacked.1 isShm⟩
    · intro isBuffer
      obtain ⟨framebuffer, there, holds⟩ := isBacked.2 isBuffer
      exact ⟨framebuffer, there, frame, handed, installed, holds⟩
  rcases how with ⟨pre, _, handed⟩ | ⟨hf, _, _, handed⟩ | ⟨new, _⟩
  · obtain ⟨source', mapped, isBacked⟩ := contained.resident.backed _ frame user pre
    rw [maps_unique contained.resident.good.1 mapped ⟨area, mem, hasPage, rfl⟩] at isBacked
    exact backs handed isBacked
  · exact backs handed (contained.target placed mem hasPage user.aligned hf).2
  · -- A page of RAM is alloc only where the file is neither.
    constructor
    · intro isShm
      simp only [faultTarget, backing, isShm, if_true] at new
      cases new
    · intro isBuffer
      simp only [faultTarget, backing, isBuffer.1, isBuffer.2, if_true, if_false] at new
      obtain ⟨_, _, eq⟩ := map_eq_some_iff.mp new
      cases eq

/-- From an address space without file mappings whose mapped pages lie in its areas, every run of
memory calls and page faults that meets the condition keeps shared pages where they belong. -/
theorem shared_pages_contained {tables : Descriptors} {cr3 : Nat} (placed : Placed tables) {start state : UserSpace}
    (resident : start.Resident (· = cr3) (SharedFrame tables) (Backs tables) cr3)
    (plain : ∀ area ∈ start.space.vmas, area.backingFile = none)
    (reached : Reaches (UserSpace.step tables cr3) (UserSpace.Meets tables cr3) start state) :
    state.InstallsShared tables cr3 := by
  have fileless : ∀ pos id off, ¬ Maps start.space.vmas pos (some (id, off)) := by
    intro pos id off ⟨area, mem, _, source⟩
    rw [VMArea.source, plain area mem] at source
    cases source
  have first : start.Contained tables cr3 := by
    refine ⟨resident, fun pos id off mapped => absurd mapped (fileless pos id off), ?_⟩
    intro framebuffer _ id _ start' count off shown
    cases count with
    | zero => exact Nat.zero_le _
    | succ count => exact absurd (shown 0 (Nat.succ_pos count)) (fileless _ _ _)
  have contained : state.Contained tables cr3 := reached.invariant (UserSpace.Contained tables cr3) first
    fun _ _ _ contained meets ht => contained.step placed meets ht
  exact contained.installs placed

/-- Descriptor 3 is shared memory of one page, the frame at `0x110000`. -/
def shmTables : Descriptors where
  fdTable fd := if fd = 3 then some 0 else none
  files _ := ⟨.shm, "shm", 1, 0, false⟩
  regions _ := ⟨"shm", 0x110000, 1, 1, true⟩
  framebuffer := none

/-- An address space with an empty top-level table at `0x100000`. -/
def shmStart : UserSpace where
  paging := ⟨⟨⟨fun byte => if byte = 0 ∨ byte = 2 then 1 else 0, fun _ => 0⟩, fun _ _ => 0, []⟩, virtual 0 none⟩
  space := execveSpace 0x400000 0x401000 fun _ => true

theorem shmTables_shared {frame : Nat} : SharedFrame shmTables frame ↔ frame = 0x110000 := by
  constructor
  · rintro (⟨id, _, hal, low, high⟩ | ⟨_, there, _⟩)
    · simp only [Descriptors.region, shmTables, ShmRegion.bytes, pageSize] at low high
      omega
    · cases there
  · rintro rfl
    refine .inl ⟨0, rfl, ?_⟩
    constructor <;> decide

theorem shmTables_placed : Placed shmTables := by
  constructor
  · intro id _
    constructor
    · simp only [Descriptors.region, shmTables]
      decide
    · have first : (physicalAllocPages ⟨fun byte => if byte < 2 then 255 else 0, fun _ => 0⟩ 1).1 = 0x110000 := by
        decide +kernel
      exact ⟨_, _, (Prod.mk.eta (p := physicalAllocPages _ 1)).symm.trans (congrArg (Prod.mk · _) first)⟩
  all_goals
    intro framebuffer there
    exact nomatch there

theorem shmStart_resident : shmStart.Resident (· = 0x100000) (SharedFrame shmTables) (Backs shmTables) 0x100000 := by
  have used : shmStart.paging.memory.InUse 0x100000 := ⟨0, by decide, by decide, by decide⟩
  have notShared : ¬ SharedFrame shmTables 0x100000 := by
    rw [shmTables_shared]
    decide
  have held : ∀ frame, SharedFrame shmTables frame → Managed frame → shmStart.paging.memory.InUse frame := by
    intro frame isShared _
    rw [shmTables_shared.mp isShared]
    exact ⟨16, by decide, by decide, by decide⟩
  have nz : ¬ SharedFrame shmTables 0 := by
    rw [shmTables_shared]
    decide
  obtain ⟨node, spare, layout, _⟩ := virtual_layout 0 none
  exact resident_empty used notShared nz (fun _ _ => (by decide : present 0 = false)) held ⟨[node], spare, layout⟩
    (execveSpace_good (by constructor <;> decide) _)

theorem shmStart_plain : ∀ area ∈ shmStart.space.vmas, area.backingFile = none := by decide

/-- The address space after the page was mapped with an offset. -/
def shmMapped (offset : Nat) : UserSpace where
  paging := shmStart.paging
  space := ⟨[⟨0x400000, 0x401000, 7, 2, none, 0⟩, ⟨0x200000000, 0x200001000, 3, 1, some 0, offset⟩,
    ⟨0x7FFFFFFF6000, 0x7FFFFFFFE000, 3, 0x22, none, 0⟩], 0x200001000⟩

theorem shmStart_step (off : UInt64) (called : sysMMap shmTables shmStart.space (0 : UInt64).toNat
      (0x1000 : UInt64).toNat (3 : UInt64).toNat (1 : UInt64).toNat (3 : UInt64).toNat off.toNat (fun _ => true) =
      some (.ok 0x200000000, (shmMapped off.toNat).space, [])) :
    shmStart.step shmTables 0x100000 (.mmap 0 0x1000 3 1 3 off fun _ => true) = some (shmMapped off.toNat) := by
  simp only [UserSpace.step, called, map_some]
  rfl

theorem shared_pages_contained_mapped :
    ∃ state, Reaches (UserSpace.step shmTables 0x100000) (UserSpace.Meets shmTables 0x100000) shmStart state ∧
      (∃ area ∈ state.space.vmas, area.backingFile = some 0) ∧ state.InstallsShared shmTables 0x100000 := by
  have hs := shmStart_step 0 (by decide +kernel)
  have meets : shmStart.Meets shmTables 0x100000 (.mmap 0 0x1000 3 1 3 0 fun _ => true) := by
    refine ⟨by decide, fun id _ _ => ⟨fun _ => by decide, fun isBuffer => absurd rfl isBuffer.1⟩⟩
  have hr := Reaches.next _ .start meets hs
  exact ⟨_, hr, by decide, shared_pages_contained shmTables_placed shmStart_resident shmStart_plain hr⟩

/-- An offset of one page before zero passes the check, since its end wraps to zero, and the fault
installs the frame in front of the region. -/
theorem frame_before_region_installed :
    ¬ ∀ (tables : Descriptors) (cr3 : Nat) (start state : UserSpace), Placed tables →
      start.Resident (· = cr3) (SharedFrame tables) (Backs tables) cr3 →
      (∀ area ∈ start.space.vmas, area.backingFile = none) →
      Reaches (UserSpace.step tables cr3) (fun _ _ => True) start state → state.InstallsShared tables cr3 := by
  intro claimed
  have hs := shmStart_step 0xFFFFFFFFFFFFF000 (by decide +kernel)
  have installs := claimed shmTables 0x100000 shmStart _ shmTables_placed shmStart_resident shmStart_plain
    (.next _ .start trivial hs)
  have faulted : (pageFaultHandler shmTables 0x100000 (shmMapped 0xFFFFFFFFFFFFF000).space.vmas
      (shmMapped 0xFFFFFFFFFFFFF000).paging.memory 0x200000000
      (faultCode (shmMapped 0xFFFFFFFFFFFFF000).paging.memory 0x100000 0x200000000 false) fun _ => 0).map
      (fun memory => memory.getPhysicalAddress 0x100000 0x200000000) = some 0x10F000 := by
    decide +kernel
  obtain ⟨memory', handled, physAddr⟩ := map_eq_some_iff.mp faulted
  obtain ⟨area, mem, has, hin⟩ := installs 0x200000000 false (fun _ => 0) memory' handled
  have backing : area.backingFile = some 0 := by
    have only : ∀ area ∈ (shmMapped 0xFFFFFFFFFFFFF000).space.vmas,
        area.start ≤ 0x200000000 → 0x200000000 < area.stop → area.backingFile = some 0 := by decide
    exact only area mem has.1 has.2
  obtain ⟨installed, _, eq, holds⟩ := (hin 0 backing).1 rfl
  have low := holds.low
  rw [← eq] at low
  have mask : pageMask (0x200000000 : UInt64).toNat = 0x200000000 := by decide
  rw [mask, physAddr] at low
  exact absurd low (by decide)

end RosKernel.Process
