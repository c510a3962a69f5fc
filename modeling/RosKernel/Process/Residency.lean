import RosKernel.Memory.PageRanges
import RosKernel.Process.AddressSpace

/-! Page faults of user code (`intidt/isrservices.cpp`) and the memory calls, with what they do to the page tables.

A fault that is not resolved stops the kernel. The processor tells the handler whether the page was present and whether the
access was a write. The page tables follow the area list: a mapped page lies in an area, and the frame behind it is the one
that the area's backing prescribes.
-/

set_option autoImplicit false

namespace RosKernel.Process

open Library Memory List Option

def mapFlags (area : VMArea) : Nat := pageUser ||| pagePresent ||| if area.prot &&& 2 ≠ 0 then pageRW else 0

section

variable (tables : Descriptors)
include tables

/-- The physical page behind a page that has no RAM of its own; without boot information
there is no framebuffer to read the address from. -/
def faultTarget (area : VMArea) (page : Nat) : Option (Option Nat) :=
  match area.backingFile with
  | none => some none
  | some id =>
    let file := tables.files id
    if file.type = .shm then
      some (some (add64 (add64 (tables.regions file.privateData).physAddr area.fileOffset) (sub64 page area.start)))
    else if file.fileName = framebufferName then
      tables.framebuffer.map fun framebuffer => some (add64 framebuffer.address (sub64 page area.start))
    else some none

/-- Filling a page of RAM: `content` is what is read from the file, padded with zeros. A file
without a file system gives the page back, which stays mapped. -/
def faultFill (area : VMArea) (memory : PageMemory) (frame : Nat) (content : Nat → Nat) : Bool × PageMemory :=
  match area.backingFile with
  | none => (true, memory.clearPage frame)
  | some id =>
    if (tables.files id).hasOwner then
      (true, { memory with words := Function.update memory.words frame content })
    else (false, memory.free frame)

/-- Demand paging, the part of `HandleUserPageFault` for a page that is not there. -/
def demandPage (cr3 : Nat) (area : VMArea) (memory : PageMemory) (page : Nat) (content : Nat → Nat) :
    Option (Bool × PageMemory) :=
  match faultTarget tables area page with
  | none => none
  | some (some physAddr) => some (memory.mapPages cr3 physAddr page 1 (mapFlags area))
  | some none =>
    let (frame, memory) := memory.allocPage
    if frame = 0 then some (false, memory)
    else
      match memory.mapPages cr3 frame page 1 (mapFlags area) with
      | (false, memory) => some (false, memory.free frame)
      | (true, memory) => some (faultFill tables area memory frame content)

def handleUserPageFault (cr3 : Nat) (vmas : List VMArea) (memory : PageMemory) (faultAddr errorCode : Nat)
    (content : Nat → Nat) : Option (Bool × PageMemory) :=
  let page := pageMask faultAddr
  match findAt faultAddr vmas with
  | none => some (false, memory)
  | some (_, area, _) =>
    if errorCode &&& 2 ≠ 0 ∧ area.prot &&& 2 = 0 then some (false, memory)
    else
      let oldPhys := memory.getPhysicalAddress cr3 page
      if errorCode &&& 1 ≠ 0 ∧ oldPhys ≠ 0 then some (true, (memory.mapPages cr3 oldPhys page 1 (mapFlags area)).2)
      else demandPage tables cr3 area memory page content

/-- `PageFaultHandler` for user code; `none` is the panic. -/
def pageFaultHandler (cr3 : Nat) (vmas : List VMArea) (memory : PageMemory) (faultAddr errorCode : Nat) (content : Nat → Nat) :
    Option PageMemory :=
  if errorCode &&& 4 ≠ 0 ∧ (errorCode &&& 1 = 0 ∨ errorCode &&& 2 ≠ 0) then
    match handleUserPageFault tables cr3 vmas memory faultAddr errorCode content with
    | some (true, memory) => some memory
    | _ => none
  else none

end

/-- The error code of an access by user code, as the processor finds it in the tables. -/
def faultCode (memory : PageMemory) (cr3 addr : Nat) (write : Bool) : Nat :=
  4 ||| (if memory.getPhysicalAddress cr3 (pageMask addr) = 0 then 0 else 1) ||| if write then 2 else 0

/-! ## The calls on the page tables -/

def applyEffect (cr3 : Nat) (paging : Paging) : MmEffect → Option Paging
  | .retain _ => some paging
  | .release _ => some paging
  | .unmapRange start size freePhysical => paging.unmapRange cr3 start size freePhysical
  | .updateProt start len prot =>
    (paging.memory.updatePageTableProt cr3 start len prot).map fun memory => { paging with memory := memory }

def applyEffects (cr3 : Nat) (paging : Paging) : List MmEffect → Option Paging
  | [] => some paging
  | effect :: rest => (applyEffect cr3 paging effect).bind fun paging => applyEffects cr3 paging rest

/-- One task's memory: the page tables with the allocators behind them, and the area list. -/
structure UserSpace where
  paging : Paging
  space : AddressSpace

/-- A `store` is an access by user code to a page that is mapped. -/
inductive UserCall where
  | mmap (addr length prot flags fd offset : UInt64) (newOk : Nat → Bool)
  | munmap (addr length : UInt64) (newOk : Nat → Bool)
  | mprotect (addr len prot : UInt64) (newOk : Nat → Bool)
  | fault (addr : UInt64) (write : Bool) (content : Nat → Nat)
  | store (addr : UInt64) (value : Nat)

/-- The state after a call, with the descriptors and the `CR3` of the task; `none` if the call
does not return. -/
def UserSpace.step (tables : Descriptors) (cr3 : Nat) (state : UserSpace) : UserCall → Option UserSpace
  | .mmap addr length prot flags fd offset newOk =>
    (sysMMap tables state.space addr.toNat length.toNat prot.toNat flags.toNat fd.toNat offset.toNat newOk).map
      fun (_, space, _) => { state with space := space }
  | .munmap addr length newOk =>
    (munmap state.space.vmas addr.toNat length.toNat newOk).bind fun (_, vmas, effects) =>
      (applyEffects cr3 state.paging effects).map fun paging => ⟨paging, { state.space with vmas := vmas }⟩
  | .mprotect addr len prot newOk =>
    (mprotect state.space.vmas addr.toNat len.toNat prot.toNat newOk).bind fun (_, vmas, effects) =>
      (applyEffects cr3 state.paging effects).map fun paging => ⟨paging, { state.space with vmas := vmas }⟩
  | .fault addr write content =>
    (pageFaultHandler tables cr3 state.space.vmas state.paging.memory addr.toNat
      (faultCode state.paging.memory cr3 addr.toNat write) content).map
      fun memory => { state with paging := { state.paging with memory := memory } }
  | .store addr value =>
    let frame := state.paging.memory.getPhysicalAddress cr3 (pageMask addr.toNat)
    if userMaxAddr ≤ addr.toNat ∨ frame = 0 then none
    else some { state with
      paging := { state.paging with memory := state.paging.memory.write frame (addr.toNat % pageSize / 8) value } }

/-! ## A resolved fault -/

section

variable {tables : Descriptors} {roots shared : Nat → Prop} {cr3 page : Nat} {area : VMArea}
  {memory memory' : PageMemory}

theorem mapFlags_spec (area : VMArea) : entryAddr (mapFlags area) = 0 ∧ present (mapFlags area) = true := by
  unfold mapFlags
  split <;> decide

theorem mapPages_one {physAddr virtAddr flags : Nat} (physSmall : physAddr < 2 ^ 64) (virtSmall : virtAddr < 2 ^ 64) :
    memory.mapPages cr3 physAddr virtAddr 1 flags = memory.mapPage cr3 physAddr virtAddr flags := by
  have phys : add64 physAddr (mul64 0 pageSize) = physAddr := by
    rw [mul64_eq (by decide), add64_eq (by omega), Nat.zero_mul, Nat.add_zero]
  have virt : add64 virtAddr (mul64 0 pageSize) = virtAddr := by
    rw [mul64_eq (by decide), add64_eq (by omega), Nat.zero_mul, Nat.add_zero]
  unfold PageMemory.mapPages PageMemory.mapPagesFrom
  rw [phys, virt]
  cases memory.mapPage cr3 physAddr virtAddr flags with
  | mk ok memory' => cases ok <;> rfl

/-- What a resolved fault leaves: one page is mapped, to the frame that it had, to the one that
its backing prescribes, or to a new one. -/
structure Resolved (tables : Descriptors) (roots shared : Nat → Prop) (cr3 : Nat) (area : VMArea) (page : Nat)
    (memory memory' : PageMemory) : Prop where
  tree : PageTree memory' roots shared
  history : memory'.freed = memory.freed
  mapped : ∃ frame,
    (∀ root path, roots root → UserPath path → path.length = 4 → memory'.walk root path =
      if root = cr3 ∧ path = pathOf page then some frame else memory.walk root path) ∧
    (memory.walk cr3 (pathOf page) = some frame ∧ (∀ other, memory'.Data roots other ↔ memory.Data roots other) ∧
        memory' = (memory.mapPages cr3 frame page 1 (mapFlags area)).2 ∨
      faultTarget tables area page = some (some frame) ∧ memory.walk cr3 (pathOf page) = none ∧
        (∀ other, memory'.Data roots other ↔ memory.Data roots other) ∧
        memory' = (memory.mapPages cr3 frame page 1 (mapFlags area)).2 ∨
      faultTarget tables area page = some none ∧ memory.walk cr3 (pathOf page) = none ∧ ¬ shared frame ∧
        ¬ memory.Data roots frame ∧ ∀ other, memory'.Data roots other ↔ memory.Data roots other ∨ other = frame)

theorem mapPages_resolved {frame : Nat} {ok : Bool} (tree : PageTree memory roots shared) (isRoot : roots cr3)
    (h : UserPage page) (mappable : Mappable frame) (may : memory.MayMap roots shared cr3 (pathOf page) frame)
    (mapped : memory.mapPages cr3 frame page 1 (mapFlags area) = (ok, memory')) :
    PageTree memory' roots shared ∧ memory'.freed = memory.freed ∧
      (∀ other, memory'.Data roots other ↔ memory.Data roots other) ∧
      ∀ root path, roots root → UserPath path → path.length = 4 → memory'.walk root path =
        if ok = true ∧ root = cr3 ∧ path = pathOf page then some frame else memory.walk root path := by
  have physSmall := mappable.small
  have virtSmall := h.small
  rw [mapPages_one (by omega) (by omega)] at mapped
  exact tree.mapPage isRoot h.small mappable (mapFlags_spec area).1 (mapFlags_spec area).2 may mapped

theorem faultFill_resolved {frame : Nat} {content : Nat → Nat} (filled : faultFill tables area memory frame content = (true, memory')) :
    memory'.frames = memory.frames ∧ memory'.freed = memory.freed ∧
      ∀ other, other ≠ frame → memory'.words other = memory.words other := by
  unfold faultFill at filled
  split at filled
  · cases filled
    exact ⟨rfl, rfl, fun other ne => Function.update_of_ne ne _ _⟩
  · split at filled
    · cases filled
      exact ⟨rfl, rfl, fun other ne => Function.update_of_ne ne _ _⟩
    · exact nomatch filled

section

variable (tree : PageTree memory roots shared) (isRoot : roots cr3) (h : UserPage page)
include tree isRoot h

theorem demandPage_resolved {content : Nat → Nat} (absent : memory.walk cr3 (pathOf page) = none)
    (target : ∀ physAddr, faultTarget tables area page = some (some physAddr) → shared physAddr ∧ Mappable physAddr)
    (resolved : demandPage tables cr3 area memory page content = some (true, memory')) :
    Resolved tables roots shared cr3 area page memory memory' := by
  unfold demandPage at resolved
  cases backing : faultTarget tables area page with
  | none =>
    rw [backing] at resolved
    exact nomatch resolved
  | some hf =>
    rw [backing] at resolved
    cases hf with
    | some physAddr =>
      obtain ⟨isShared, mappable⟩ := target physAddr backing
      obtain ⟨tree', history, data, walks⟩ := mapPages_resolved tree isRoot h mappable (.inl isShared)
        (some.inj resolved)
      refine ⟨tree', history, physAddr, ?_, .inr (.inl ⟨backing, absent, data, ?_⟩)⟩
      · simpa only [true_and] using walks
      · rw [some.inj resolved]
    | none =>
      rcases tree.allocPage with none_ | ⟨frame, ht, alloc, managed, tree1, walks1, history1, notShared,
        fresh, unreached, data1⟩
      · grind
      · rw [alloc] at resolved
        simp only [managed.pos, if_false] at resolved
        cases mapping : ht.mapPages cr3 frame page 1 (mapFlags area) with
        | mk ok mid =>
          rw [mapping] at resolved
          cases ok with
          | false => simp only [Option.some.injEq, Prod.mk.injEq, Bool.false_eq_true, false_and] at resolved
          | true =>
            have filled := some.inj resolved
            have may : ht.MayMap roots shared cr3 (pathOf page) frame := by
              refine .inr ⟨(data1 frame).mpr (.inr rfl), notShared, ?_⟩
              intro root path isRoot' user _ hr
              exact absurd hr (unreached root path isRoot' user)
            obtain ⟨tree2, history2, data2, walks2⟩ := mapPages_resolved tree1 isRoot h managed.mappable may mapping
            obtain ⟨frames3, history3, words3⟩ := faultFill_resolved filled
            have isData : mid.Data roots frame := (data2 frame).mpr ((data1 frame).mpr (.inr rfl))
            obtain ⟨tree3, same3⟩ := tree2.fill memory' frames3 isData.2 words3
            refine ⟨tree3, by rw [history3, history2, history1], frame, ?_,
              .inr (.inr ⟨backing, absent, notShared, fresh, ?_⟩)⟩
            · intro root path isRoot' user leaf
              rw [same3.leaves root path isRoot' user leaf, walks2 root path isRoot' user leaf, walks1]
              simp only [true_and]
            · intro other
              rw [same3.data, data2, data1]

theorem mayMap_again {frame : Nat} (hr : memory.walk cr3 (pathOf page) = some frame) :
    memory.MayMap roots shared cr3 (pathOf page) frame := by
  by_cases isShared : shared frame
  · exact .inl isShared
  · obtain ⟨data, only⟩ := tree.leaf isRoot h hr isShared
    refine .inr ⟨data, isShared, ?_⟩
    intro root path isRoot' user _ again
    exact only root path isRoot' user again

end

theorem walk_mappable {root i frame : Nat} {path : List Nat} (hr : memory.walk root (i :: path) = some frame) :
    Mappable frame := by
  have step : memory.walk root (i :: path) =
      (memory.walk root path).bind fun table => entryFrame (memory.words table i) := rfl
  obtain ⟨table, _, named⟩ := bind_eq_some_iff.mp hr
  unfold entryFrame at named
  split at named
  · cases named
    exact entryAddr_mappable _
  · exact nomatch named

theorem getPhysicalAddress_eq_zero (tree : PageTree memory roots shared) (nz : ¬ shared 0) (isRoot : roots cr3)
    (h : UserPage page) : memory.getPhysicalAddress cr3 page = 0 ↔ memory.walk cr3 (pathOf page) = none := by
  rw [tree.getPhysicalAddress isRoot h.small h.aligned]
  cases hr : memory.walk cr3 (pathOf page) with
  | none => simp
  | some frame =>
    simp only [getD_some, reduceCtorEq, iff_false]
    rintro rfl
    cases tree.used cr3 (pathOf page) 0 isRoot h.path hr with
    | inl alone => exact alone.1.managed.pos rfl
    | inr leaf => exact nz leaf.2

theorem faultCode_present (memory : PageMemory) (cr3 addr : Nat) (write : Bool) :
    faultCode memory cr3 addr write &&& 1 ≠ 0 ↔ memory.getPhysicalAddress cr3 (pageMask addr) ≠ 0 := by
  unfold faultCode
  by_cases absent : memory.getPhysicalAddress cr3 (pageMask addr) = 0
  · rw [if_pos absent]
    cases write <;> simp [absent]
  · rw [if_neg absent]
    cases write <;> simp [absent]

theorem userPage_pageMask {addr : Nat} (below : addr < userMaxAddr) :
    UserPage (pageMask addr) ∧ pageMask addr ≤ addr ∧ addr < pageMask addr + pageSize := by
  simp only [userMaxAddr] at below
  rw [pageMask_eq (by omega)]
  refine ⟨⟨Nat.mul_mod_left _ _, by omega⟩, by omega, ?_⟩
  simp only [pageSize]
  omega

theorem pageFaultHandler_resolved {vmas : List VMArea} {addr : Nat} {write : Bool} {content : Nat → Nat}
    (tree : PageTree memory roots shared) (nz : ¬ shared 0) (isRoot : roots cr3)
    (below : ∀ area ∈ vmas, area.stop ≤ userMaxAddr)
    (target : ∀ area ∈ vmas, area.Has addr → ∀ physAddr, faultTarget tables area (pageMask addr) = some (some physAddr) →
      shared physAddr ∧ Mappable physAddr)
    (handled : pageFaultHandler tables cr3 vmas memory addr (faultCode memory cr3 addr write) content = some memory') :
    ∃ area ∈ vmas, area.Has addr ∧ Resolved tables roots shared cr3 area (pageMask addr) memory memory' := by
  unfold pageFaultHandler at handled
  split at handled
  · split at handled
    next resolved =>
      cases handled
      unfold handleUserPageFault at resolved
      cases hf : findAt addr vmas with
      | none =>
        rw [hf] at resolved
        exact nomatch resolved
      | some split =>
        obtain ⟨pre, area, after⟩ := split
        rw [hf] at resolved
        obtain ⟨rfl, has⟩ := findAt_some hf
        have mem : area ∈ pre ++ area :: after := by simp
        have h := (userPage_pageMask (Nat.lt_of_lt_of_le has.2 (below area mem))).1
        refine ⟨area, mem, has, ?_⟩
        simp only at resolved
        split at resolved
        · exact nomatch resolved
        · split at resolved
          next present =>
            -- The page is there and gets new flags; a failure of `MapPages` would go unnoticed.
            have mappedBefore : memory.walk cr3 (pathOf (pageMask addr)) ≠ none := by
              rw [ne_eq, ← getPhysicalAddress_eq_zero tree nz isRoot h]
              exact present.2
            obtain ⟨frame, hr⟩ := ne_none_iff_exists'.mp mappedBefore
            have old : memory.getPhysicalAddress cr3 (pageMask addr) = frame := by
              rw [tree.getPhysicalAddress isRoot h.small h.aligned, hr, getD_some]
            rw [old] at resolved
            cases resolved
            obtain ⟨tree', history, data, walks⟩ := mapPages_resolved tree isRoot h (walk_mappable hr)
              (mayMap_again tree isRoot h hr) (Prod.mk.eta (p := memory.mapPages cr3 frame (pageMask addr) 1 (mapFlags area))).symm
            refine ⟨tree', history, frame, ?_, .inl ⟨hr, data, rfl⟩⟩
            intro root path isRoot' user leaf
            rw [walks root path isRoot' user leaf]
            by_cases eq : root = cr3 ∧ path = pathOf (pageMask addr)
            · rw [if_pos eq, eq.1, eq.2, hr, ite_self]
            · rw [if_neg eq, if_neg fun both => eq both.2]
          next notPresent =>
            have absent : memory.walk cr3 (pathOf (pageMask addr)) = none := by
              rw [← getPhysicalAddress_eq_zero tree nz isRoot h]
              by_contra there
              exact notPresent ⟨(faultCode_present memory cr3 addr write).mpr there, there⟩
            exact demandPage_resolved tree isRoot h absent (target area mem has) resolved
    · exact nomatch handled
  · exact nomatch handled

end

/-! ## Removing a range -/

section

variable {roots shared : Nat → Prop} {cr3 addr endAddr : Nat} {area : VMArea} {vmas : List VMArea} {paging : Paging}

theorem applyEffects_append (pre after : List MmEffect) :
    applyEffects cr3 paging (pre ++ after) =
      (applyEffects cr3 paging pre).bind fun paging => applyEffects cr3 paging after := by
  induction pre generalizing paging with
  | nil => rfl
  | cons effect rest ih =>
    simp only [cons_append, applyEffects]
    cases applyEffect cr3 paging effect with
    | none => rfl
    | some next => exact ih

theorem applyEffects_releases (area : VMArea) : applyEffects cr3 paging area.releases = some paging := by
  unfold VMArea.releases
  cases area.backingFile <;> rfl

/-- The pages of an area that lie in the range. -/
def VMArea.cut (area : VMArea) (addr endAddr page : Nat) : Prop :=
  page % pageSize = 0 ∧ area.Has page ∧ addr ≤ page ∧ page < endAddr

theorem applyEffects_carve (proper : area.Proper) (range : addr ≤ endAddr) :
    (applyEffects cr3 paging (area.carve addr endAddr).effects = some paging ∧ ∀ page, ¬ area.cut addr endAddr page) ∨
    ∃ start stop, start ≤ stop ∧ area.start ≤ start ∧ stop ≤ area.stop ∧
      (start = area.start ∨ start = addr) ∧ (stop = area.stop ∨ stop = endAddr) ∧
      (∀ page, InRange start (stop - start) page ↔ area.cut addr endAddr page) ∧
      applyEffects cr3 paging (area.carve addr endAddr).effects =
        paging.unmapRange cr3 start (stop - start) area.backingFile.isNone := by
  have nonempty := proper.nonempty
  have below := proper.below
  simp only [userMaxAddr] at below
  have cuts : ∀ start stop, (∀ page, start ≤ page ∧ page < stop ↔ area.Has page ∧ addr ≤ page ∧ page < endAddr) →
      start ≤ stop → ∀ page, InRange start (stop - start) page ↔ area.cut addr endAddr page := by
    intro start stop eq ord page
    constructor
    · rintro ⟨hal, low, high⟩
      exact ⟨hal, (eq page).mp ⟨low, by omega⟩⟩
    · rintro ⟨hal, rest⟩
      have := (eq page).mpr rest
      exact ⟨hal, this.1, by omega⟩
  unfold VMArea.carve
  split
  next ne =>
    refine .inl ⟨rfl, ?_⟩
    rintro page ⟨_, has, low, high⟩
    simp only [VMArea.Has] at has
    omega
  next meets =>
    right
    split
    next whole =>
      refine ⟨area.start, area.stop, Nat.le_of_lt nonempty, Nat.le_refl _, Nat.le_refl _, .inl rfl, .inl rfl,
        cuts _ _ (fun page => ?_) (Nat.le_of_lt nonempty), ?_⟩
      · simp only [VMArea.Has]
        omega
      · simp only [applyEffects, applyEffect]
        rw [sub64_eq (Nat.le_of_lt nonempty) (by omega)]
        cases paging.unmapRange cr3 area.start (area.stop - area.start) area.backingFile.isNone with
        | none => rfl
        | some next => exact applyEffects_releases area
    next partly =>
      split
      next starts =>
        split
        next ends =>
          refine ⟨addr, endAddr, range, by omega, by omega, .inr rfl, .inr rfl, cuts _ _ (fun page => ?_) range, ?_⟩
          · simp only [VMArea.Has]
            omega
          · simp only [applyEffects, applyEffect]
            rw [sub64_eq range (by omega), bind_fun_some]
        next inner =>
          refine ⟨addr, area.stop, by omega, by omega, Nat.le_refl _, .inr rfl, .inl rfl,
            cuts _ _ (fun page => ?_) (by omega), ?_⟩
          · simp only [VMArea.Has]
            omega
          · simp only [applyEffects, applyEffect]
            rw [sub64_eq (by omega) (by omega), bind_fun_some]
      next later =>
        split
        next ends =>
          refine ⟨area.start, endAddr, by omega, Nat.le_refl _, by omega, .inl rfl, .inr rfl,
            cuts _ _ (fun page => ?_) (by omega), ?_⟩
          · simp only [VMArea.Has]
            omega
          · simp only [applyEffects, applyEffect]
            rw [sub64_eq (by omega) (by omega), bind_fun_some]
        next impossible => exact absurd ⟨by omega, by omega⟩ partly

/-- The pages of the list that lie in the range. -/
def cutPages (vmas : List VMArea) (addr endAddr page : Nat) : Prop := ∃ area ∈ vmas, area.cut addr endAddr page

/-- Those of them that the call gives back, since their area has no file. -/
def cutFrames (vmas : List VMArea) (addr endAddr page : Nat) : Prop :=
  ∃ area ∈ vmas, area.backingFile = none ∧ area.cut addr endAddr page

theorem VMArea.cut_user {page : Nat} (proper : area.Proper) (hin : area.cut addr endAddr page) : UserPage page := by
  obtain ⟨hal, has, _⟩ := hin
  refine ⟨hal, ?_⟩
  have below := proper.below
  have := has.2
  simp only [userMaxAddr] at below
  omega

theorem clear_area (proper : area.Proper) (range : addr ≤ endAddr) (addrAligned : addr % pageSize = 0)
    (endAligned : endAddr % pageSize = 0) (order : paging.InOrder roots shared) (isRoot : roots cr3)
    (own : area.backingFile = none → ∀ page, area.cut addr endAddr page →
      ∀ frame, paging.memory.walk cr3 (pathOf page) = some frame → ¬ shared frame) :
    ∃ paging', applyEffects cr3 paging (area.carve addr endAddr).effects = some paging' ∧
      paging'.InOrder roots shared ∧
      Cleared roots shared cr3 (area.cut addr endAddr) (fun page => area.backingFile = none ∧ area.cut addr endAddr page)
        paging.memory paging'.memory := by
  have startAligned := proper.startAligned
  have stopAligned := proper.stopAligned
  have below := proper.below
  rcases applyEffects_carve proper range with
    ⟨eq, none_⟩ | ⟨start, stop, ord, low, high, startIs, stopIs, pages, unmapped⟩
  · refine ⟨paging, eq, order, (Cleared.nothing order.tree).congr ?_ ?_⟩
    · intro page
      exact (iff_false_intro (none_ page)).symm
    · grind
  · have hal : start % pageSize = 0 := by
      cases startIs with
      | inl eq => rw [eq, startAligned]
      | inr eq => rw [eq, addrAligned]
    have whole : (stop - start) % pageSize = 0 := by
      have stops : stop % pageSize = 0 := by
        cases stopIs with
        | inl eq => rw [eq, stopAligned]
        | inr eq => rw [eq, endAligned]
      simp only [pageSize] at hal stops ⊢
      omega
    have bound : start + (stop - start) ≤ 2 ^ 47 := by
      simp only [userMaxAddr] at below
      omega
    rw [unmapped]
    obtain ⟨paging', done, order', cleared⟩ := order.unmapRange isRoot hal whole bound
      (fun free page hin => own (isNone_iff_eq_none.mp free) page ((pages page).mp hin))
    refine ⟨paging', done, order', cleared.congr pages ?_⟩
    intro page
    rw [pages, isNone_iff_eq_none]

theorem clear_areas (wf : WellFormed vmas) (range : addr ≤ endAddr) (addrAligned : addr % pageSize = 0)
    (endAligned : endAddr % pageSize = 0) (order : paging.InOrder roots shared) (isRoot : roots cr3)
    (own : ∀ page, cutFrames vmas addr endAddr page →
      ∀ frame, paging.memory.walk cr3 (pathOf page) = some frame → ¬ shared frame) :
    ∃ paging', applyEffects cr3 paging (vmas.flatMap fun area => (area.carve addr endAddr).effects) = some paging' ∧
      paging'.InOrder roots shared ∧
      Cleared roots shared cr3 (cutPages vmas addr endAddr) (cutFrames vmas addr endAddr) paging.memory paging'.memory := by
  induction vmas generalizing paging with
  | nil =>
    refine ⟨paging, rfl, order, (Cleared.nothing order.tree).congr ?_ ?_⟩
    · intro page
      simp [cutPages]
    · intro page
      simp [cutFrames]
  | cons area rest ih =>
    obtain ⟨proper, gap, restWf⟩ := wellFormed_cons.mp wf
    obtain ⟨mid, first, order1, one⟩ := clear_area proper range addrAligned endAligned order isRoot
      fun anonymous page hin => own page ⟨area, .head _, anonymous, hin⟩
    -- An area further on has no page in common with this one.
    have ne : ∀ other ∈ rest, ∀ page, other.cut addr endAddr page → ¬ area.cut addr endAddr page := by
      intro other mem page ⟨_, otherHas, _⟩ ⟨_, has, _⟩
      have := gap other mem
      have := otherHas.1
      have := has.2
      omega
    have ownRest : ∀ page, cutFrames rest addr endAddr page →
        ∀ frame, mid.memory.walk cr3 (pathOf page) = some frame → ¬ shared frame := by
      intro page ⟨other, mem, anonymous, hin⟩ frame hr
      rw [one.walk_of_not (fun page => VMArea.cut_user proper) isRoot
        (VMArea.cut_user (restWf.proper other mem) hin) (ne other mem page hin)] at hr
      exact own page ⟨other, .tail _ mem, anonymous, hin⟩ frame hr
    obtain ⟨final, later, order2, others⟩ := ih restWf order1 ownRest
    refine ⟨final, ?_, order2, ?_⟩
    · rw [flatMap_cons, applyEffects_append, first, bind_some, later]
    · have both := one.trans others isRoot (fun page => VMArea.cut_user proper)
        (fun page ⟨other, mem, _, hin⟩ => VMArea.cut_user (restWf.proper other mem) hin)
        (fun page ⟨other, mem, _, hin⟩ h => absurd h (ne other mem page hin))
      apply both.congr
      · intro page
        simp only [cutPages, mem_cons, exists_eq_or_imp]
      · intro page
        simp only [cutFrames, mem_cons, exists_eq_or_imp]

end

/-! ## The invariant -/

section

/-- The page tables follow the area list; `backs` says which frames may stand behind which
byte of a file, or behind memory without a file. -/
structure UserSpace.Resident (roots shared : Nat → Prop) (backs : Option (FileId × Nat) → Nat → Prop) (cr3 : Nat)
    (state : UserSpace) : Prop where
  order : state.paging.InOrder roots shared
  good : state.space.Good
  backed : ∀ page frame, UserPage page → state.paging.memory.walk cr3 (pathOf page) = some frame →
    ∃ source, Maps state.space.vmas page source ∧ backs source frame

variable {roots shared : Nat → Prop} {backs : Option (FileId × Nat) → Nat → Prop} {cr3 : Nat}
  {tables : Descriptors} {state after : UserSpace}

theorem resident_empty {memory : PageMemory} {pool : VirtualPool} {space : AddressSpace} (used : memory.InUse cr3)
    (notShared : ¬ shared cr3) (nz : ¬ shared 0)
    (empty : ∀ i, i < 256 → present (memory.words cr3 i) = false)
    (held : ∀ frame, shared frame → Managed frame → memory.InUse frame)
    (layout : ∃ nodes spare, Layout pool nodes spare) (good : space.Good) :
    UserSpace.Resident (· = cr3) shared backs cr3 ⟨⟨memory, pool⟩, space⟩ := by
  refine ⟨⟨pageTree_empty used notShared empty held, layout, nz⟩, good, fun page frame h hr => ?_⟩
  rw [walk_empty empty h.path (cons_ne_nil _ _)] at hr
  exact nomatch hr

theorem maps_unique {vmas : List VMArea} {pos : Nat} {one other : Option (FileId × Nat)} (wf : WellFormed vmas)
    (first : Maps vmas pos one) (snd : Maps vmas pos other) : one = other := by
  obtain ⟨area, mem, has, rfl⟩ := first
  obtain ⟨area', mem', has', rfl⟩ := snd
  rw [wf.unique mem mem' has has']

theorem source_eq_none {area : VMArea} {pos : Nat} : area.source pos = none ↔ area.backingFile = none := by
  simp only [VMArea.source, map_eq_none_iff]

theorem cutPages_iff {vmas : List VMArea} {addr endAddr page : Nat} : cutPages vmas addr endAddr page ↔
    page % pageSize = 0 ∧ Covered vmas page ∧ addr ≤ page ∧ page < endAddr := by
  constructor
  · rintro ⟨area, mem, hal, has, range⟩
    exact ⟨hal, ⟨area, mem, has⟩, range⟩
  · rintro ⟨hal, ⟨area, mem, has⟩, range⟩
    exact ⟨area, mem, hal, has, range⟩

theorem cutFrames_iff {vmas : List VMArea} {addr endAddr page : Nat} : cutFrames vmas addr endAddr page ↔
    page % pageSize = 0 ∧ Maps vmas page none ∧ addr ≤ page ∧ page < endAddr := by
  constructor
  · rintro ⟨area, mem, anonymous, hal, has, range⟩
    exact ⟨hal, ⟨area, mem, has, source_eq_none.mpr anonymous⟩, range⟩
  · rintro ⟨hal, ⟨area, mem, has, anonymous⟩, range⟩
    exact ⟨area, mem, source_eq_none.mp anonymous, hal, has, range⟩

theorem UserSpace.Resident.munmap {addr length : Nat} {newOk : Nat → Bool} {res : Except Int Unit}
    {vmas' : List VMArea} {effects : List MmEffect} (resident : state.Resident roots shared backs cr3)
    (isRoot : roots cr3) (anonymous : ∀ frame, backs none frame → ¬ shared frame)
    (ret : Process.munmap state.space.vmas addr length newOk = some (res, vmas', effects)) :
    ∃ paging', applyEffects cr3 state.paging effects = some paging' ∧
      UserSpace.Resident roots shared backs cr3 ⟨paging', { state.space with vmas := vmas' }⟩ ∧
      ((length = 0 ∨ addr % pageSize ≠ 0 ∨ isValidUserRange addr (pageAlign length) = false) ∧
          vmas' = state.space.vmas ∧ paging' = state.paging ∨
        addr % pageSize = 0 ∧ isValidUserRange addr (pageAlign length) = true ∧
        (∀ pos source, Maps vmas' pos source ↔
          Maps state.space.vmas pos source ∧ ¬ (addr ≤ pos ∧ pos < add64 addr (pageAlign length))) ∧
        Cleared roots shared cr3 (cutPages state.space.vmas addr (add64 addr (pageAlign length)))
          (cutFrames state.space.vmas addr (add64 addr (pageAlign length))) state.paging.memory paging'.memory) := by
  obtain ⟨order, ⟨wf, lt⟩, backed⟩ := resident
  rcases munmap_cases ret with ⟨refused, rfl, rfl⟩ | ⟨_, hal, valid, rfl, rfl⟩
  · exact ⟨state.paging, rfl, ⟨order, ⟨wf, lt⟩, backed⟩, .inl ⟨refused, rfl, rfl⟩⟩
  · obtain ⟨endAligned, range⟩ := range_of_valid hal valid
    generalize add64 addr (pageAlign length) = endAddr at *
    have own : ∀ page, cutFrames state.space.vmas addr endAddr page →
        ∀ frame, state.paging.memory.walk cr3 (pathOf page) = some frame → ¬ shared frame := by
      intro page hin frame hr
      obtain ⟨_, maps, _⟩ := cutFrames_iff.mp hin
      obtain ⟨area, mem, _, cut⟩ := hin
      obtain ⟨source, mapped, isBacked⟩ := backed page frame (VMArea.cut_user (wf.proper area mem) cut) hr
      rw [maps_unique wf mapped maps] at isBacked
      exact anonymous frame isBacked
    obtain ⟨paging', done, order', cleared⟩ := clear_areas wf range hal endAligned order isRoot own
    obtain ⟨wf', maps'⟩ := wf.munmap range hal endAligned
    refine ⟨paging', done, ⟨order', ⟨wf', lt⟩, ?_⟩, .inr ⟨hal, valid, maps', cleared⟩⟩
    intro page frame h hr
    -- A page of the range would have been cleared with the area it lay in.
    have user : ∀ page, cutPages state.space.vmas addr endAddr page → UserPage page :=
      fun page ⟨area, mem, cut⟩ => VMArea.cut_user (wf.proper area mem) cut
    have untouched : ¬ cutPages state.space.vmas addr endAddr page := by
      intro hin
      rw [cleared.gone page hin] at hr
      exact nomatch hr
    rw [cleared.walk_of_not user isRoot h untouched] at hr
    obtain ⟨source, mapped, isBacked⟩ := backed page frame h hr
    refine ⟨source, (maps' page source).mpr ⟨mapped, fun hin => untouched ?_⟩, isBacked⟩
    exact cutPages_iff.mpr ⟨h.aligned, covered_iff.mpr ⟨source, mapped⟩, hin⟩

theorem UserSpace.Resident.resolve {area : VMArea} {addr : Nat} {memory' : PageMemory}
    (resident : state.Resident roots shared backs cr3) (isRoot : roots cr3) (mem : area ∈ state.space.vmas)
    (has : area.Has addr)
    (resolved : Resolved tables roots shared cr3 area (pageMask addr) state.paging.memory memory')
    (target : ∀ frame, faultTarget tables area (pageMask addr) = some (some frame) →
      backs (area.source (pageMask addr)) frame)
    (fresh : ∀ frame, faultTarget tables area (pageMask addr) = some none → ¬ shared frame →
      backs (area.source (pageMask addr)) frame) :
    UserSpace.Resident roots shared backs cr3
      { state with paging := { state.paging with memory := memory' } } := by
  obtain ⟨order, good, backed⟩ := resident
  refine ⟨⟨resolved.tree, order.pool, order.nonzero⟩, good, ?_⟩
  intro page frame h hr
  obtain ⟨installed, walks, how⟩ := resolved.mapped
  rw [walks cr3 (pathOf page) isRoot h.path rfl] at hr
  have proper := good.1.proper area mem
  obtain ⟨pageHere, pageLow, pageHigh⟩ := userPage_pageMask (Nat.lt_of_lt_of_le has.2 proper.below)
  split at hr
  next isPage =>
    obtain rfl := h.inj pageHere isPage.2
    cases hr
    have hasPage : area.Has (pageMask addr) := by
      have := proper.startAligned
      have := pageHere.aligned
      simp only [VMArea.Has, pageSize] at *
      omega
    rcases how with ⟨pre, _⟩ | ⟨fromTarget, _⟩ | ⟨alloc, _, notShared, _⟩
    · exact backed (pageMask addr) frame h pre
    · exact ⟨_, ⟨area, mem, hasPage, rfl⟩, target frame fromTarget⟩
    · exact ⟨_, ⟨area, mem, hasPage, rfl⟩, fresh frame alloc notShared⟩
  next => exact backed page frame h hr

theorem leaf_notTable {memory : PageMemory} {page frame : Nat} (tree : PageTree memory roots shared) (isRoot : roots cr3)
    (h : UserPage page) (hr : memory.walk cr3 (pathOf page) = some frame) (root : Nat) (path : List Nat)
    (isRoot' : roots root) (user : UserPath path) (short : path.length ≤ 3) : memory.walk root path ≠ some frame := by
  intro again
  have notShared := (tree.own isRoot' user short again).2
  exact (tree.leaf isRoot h hr notShared).1.2 root path isRoot' user short again

theorem UserSpace.Resident.store {addr : Nat} (resident : state.Resident roots shared backs cr3) (isRoot : roots cr3)
    (below : addr < userMaxAddr) (nz : state.paging.memory.getPhysicalAddress cr3 (pageMask addr) ≠ 0)
    (idx value : Nat) :
    PageTree (state.paging.memory.write (state.paging.memory.getPhysicalAddress cr3 (pageMask addr)) idx value)
        roots shared ∧
      SameLeaves roots state.paging.memory
        (state.paging.memory.write (state.paging.memory.getPhysicalAddress cr3 (pageMask addr)) idx value) := by
  have tree := resident.order.tree
  have h := (userPage_pageMask below).1
  have mapped : state.paging.memory.walk cr3 (pathOf (pageMask addr)) ≠ none := by
    rw [ne_eq, ← getPhysicalAddress_eq_zero tree resident.order.nonzero isRoot h]
    exact nz
  obtain ⟨frame, hr⟩ := ne_none_iff_exists'.mp mapped
  rw [tree.getPhysicalAddress isRoot h.small h.aligned, hr, getD_some]
  apply tree.fill (state.paging.memory.write frame idx value) rfl (leaf_notTable tree isRoot h hr)
  intro other ne
  exact Function.update_of_ne ne _ _

theorem UserSpace.Resident.sameLeaves {memory' : PageMemory} (resident : state.Resident roots shared backs cr3)
    (isRoot : roots cr3) (tree : PageTree memory' roots shared) (eq : SameLeaves roots state.paging.memory memory') :
    UserSpace.Resident roots shared backs cr3 { state with paging := { state.paging with memory := memory' } } := by
  refine ⟨⟨tree, resident.order.pool, resident.order.nonzero⟩, resident.good, ?_⟩
  intro page frame h hr
  rw [eq.leaves cr3 (pathOf page) isRoot h.path rfl] at hr
  exact resident.backed page frame h hr

end

/-! ## Changing protections -/

section

/-- At the virtual address that the number in `CR3` spells, `SetFlags` finds no entry for the
pages of the range. -/
def NoEntryAtCr3 (memory : PageMemory) (cr3 addr endAddr : Nat) : Prop :=
  ∀ page, addr ≤ page → page < endAddr →
    present (memory.words (memory.getPhysicalAddress cr3 cr3) (tableIndex 3 page)) = false

variable {cr3 addr endAddr prot : Nat}

theorem updateProt_unchanged {memory memory' : PageMemory} {start len : Nat}
    (none_ : NoEntryAtCr3 memory cr3 addr endAddr) (low : addr ≤ start) (high : start < endAddr) (lt : start < 2 ^ 64)
    (done : memory.updatePageTableProt cr3 start len prot = some memory') : memory' = memory := by
  have first : add64 start (mul64 0 pageSize) = start := by
    rw [mul64_eq (by decide), add64_eq (by omega), Nat.zero_mul, Nat.add_zero]
  unfold PageMemory.updatePageTableProt at done
  cases pages : sub64 (add64 len pageSize) 1 / pageSize with
  | zero =>
    rw [pages] at done
    exact (some.inj done).symm
  | succ pages' =>
    rw [pages] at done
    simp only [PageMemory.updateProtFrom, first] at done
    split at done
    · exact nomatch done
    · simp only [PageMemory.setFlags, none_ start low high, Bool.not_false, if_true] at done
      exact (some.inj done).symm

theorem mem_retains {area : VMArea} {effect : MmEffect} (mem : effect ∈ area.retains) :
    ∃ file, effect = .retain file := by
  simp only [VMArea.retains, mem_toList, map_eq_some_iff] at mem
  obtain ⟨file, _, rfl⟩ := mem
  exact ⟨file, rfl⟩

theorem ProtectRun.effects {scanAddr : Nat} {vmas vmas' : List VMArea} {effects : List MmEffect}
    (run : ProtectRun endAddr prot scanAddr vmas vmas' effects) (endAligned : endAddr % pageSize = 0)
    (hal : scanAddr % pageSize = 0) (wf : WellFormed vmas) : ∀ effect ∈ effects,
      (∃ file, effect = .retain file) ∨ ∃ start len, effect = .updateProt start len prot ∧ scanAddr ≤ start ∧
        start < endAddr := by
  induction run with
  | leave => exact fun effect mem => nomatch mem
  | @split scanAddr pre after vmas' hf effects _ inner high _ ih =>
    have later := ih hal (wf.split inner high hal)
    intro effect mem
    cases mem_append.mp mem with
    | inl first => exact .inl (mem_retains first)
    | inr rest => exact later effect rest
  | @round pre after vmas' hf effects more high _ ih =>
    have cut := wf.protect prot more endAligned
    have merged := cut.tryMergeNext
    have stop := merged.proper _ (mem_append_right _ (.head _))
    have later := ih stop.stopAligned merged
    have forward : hf.start ≤
        (tryMergeNext (protectTarget endAddr prot hf) (protectRest endAddr hf after)).1.stop := by
      have nonempty := stop.nonempty
      rw [tryMergeNext_start, protectTarget_start] at nonempty
      exact Nat.le_of_lt nonempty
    intro effect mem
    cases mem_append.mp mem with
    | inl first =>
      split at first
      · exact .inl (mem_retains first)
      · exact nomatch first
    | inr rest =>
      cases mem_cons.mp rest with
      | inl eq =>
        refine .inr ⟨_, _, eq, ?_, ?_⟩
        · rw [protectTarget_start]
        · rw [protectTarget_start]
          exact more
      | inr rest =>
        cases later effect rest with
        | inl retain => exact .inl retain
        | inr update =>
          obtain ⟨start, len, eq, low, below⟩ := update
          exact .inr ⟨start, len, eq, Nat.le_trans forward low, below⟩

theorem mprotect_unchanged {vmas vmas' : List VMArea} {length : Nat} {newOk : Nat → Bool} {res : Except Int Unit}
    {effects : List MmEffect} {paging paging' : Paging} (wf : WellFormed vmas)
    (none_ : NoEntryAtCr3 paging.memory cr3 addr (add64 addr (pageAlign length)))
    (ret : mprotect vmas addr length prot newOk = some (res, vmas', effects))
    (done : applyEffects cr3 paging effects = some paging') : paging' = paging := by
  rcases mprotect_cases ret with ⟨_, rfl⟩ | ⟨_, hal, valid, run⟩
  · exact (some.inj done).symm
  · obtain ⟨endAligned, _⟩ := range_of_valid hal valid
    have kinds := run.effects endAligned hal wf
    have bound : add64 addr (pageAlign length) < 2 ^ 64 := add64_lt _ _
    clear run ret
    induction effects with
    | nil => exact (some.inj done).symm
    | cons effect rest ih =>
      rw [forall_mem_cons] at kinds
      obtain ⟨mid, first, later⟩ := bind_eq_some_iff.mp done
      have eq : mid = paging := by
        rcases kinds.1 with ⟨file, rfl⟩ | ⟨start, len, rfl, low, high⟩
        · exact (some.inj first).symm
        · obtain ⟨memory', updated, rfl⟩ := map_eq_some_iff.mp first
          rw [updateProt_unchanged none_ low high (by omega) updated]
      rw [eq] at later
      exact ih later kinds.2

end

end RosKernel.Process
