import RosKernel.Memory.UserCopy
import RosKernel.Process.Elf

/-! The walkers of page tables, next to what the processor does.

Besides `GetPhysicalAddress`, the copies to user space, `tools/debug/debug.cpp` and the ELF loader each have a walk of
their own.
-/

set_option autoImplicit false

namespace RosKernel.Process

open Memory

structure DebugAddress where
  physAddr : Nat
  flags : Nat
  level : Nat
  deriving DecidableEq

/-- `Debug::VirtToPhys`; the kernel's top-level table may not be there yet. -/
def virtToPhys (memory : PageMemory) (kernelPML4 : Option Nat) (virtAddr : Nat) : Option DebugAddress :=
  kernelPML4.bind fun pml4 =>
    let e4 := memory.words pml4 (tableIndex 3 virtAddr)
    if !present e4 then none
    else
      let e3 := memory.words (entryAddr e4) (tableIndex 2 virtAddr)
      if !present e3 then none
      else if huge e3 then some ⟨(e3 &&& 0x000fffffc0000000) ||| (virtAddr &&& 0x3fffffff), e3, 1⟩
      else
        let e2 := memory.words (entryAddr e3) (tableIndex 1 virtAddr)
        if !present e2 then none
        else if huge e2 then some ⟨(e2 &&& 0x000fffffffe00000) ||| (virtAddr &&& 0x1fffff), e2, 2⟩
        else
          let e1 := memory.words (entryAddr e2) (tableIndex 0 virtAddr)
          if !present e1 then none
          else some ⟨entryAddr e1 ||| (virtAddr &&& 0xfff), e1, 4⟩

section

variable {memory : PageMemory} {pml4 virtAddr : Nat}

theorem virtToPhys_leaf :
    (virtToPhys memory (some pml4) virtAddr).map DebugAddress.physAddr = translation memory virtAddr pml4 := by
  have giga := fun entry => @leaf_or virtAddr 2 entry _ rfl
  have mega := fun entry => @leaf_or virtAddr 1 entry _ rfl
  have page := fun entry => @leaf_or virtAddr 0 entry _ rfl
  unfold translation virtToPhys
  rw [leaf_eq]
  grind [offsetBits, entryAddr, pageAddrMask]

theorem translateUserPage_leaf {frame : Nat} (hf : translateUserPage memory pml4 virtAddr = some frame) :
    ∃ entry, leaf memory virtAddr pml4 = some (0, entry) ∧ frame = entryAddr entry := by
  rw [leaf_eq]
  unfold translateUserPage at hf
  grind

end

section

variable {memory : PageMemory} {pml4 virtAddr : Nat}

/-- Every walker that finds the address finds the one that the processor uses. The ELF loader translates the page and
adds the offset itself. -/
structure WalkersAgree (memory : PageMemory) (pml4 virtAddr : Nat) : Prop where
  paging : ∀ addr, translation memory virtAddr pml4 = some addr → memory.getPhysicalAddress pml4 virtAddr = addr
  copies : ∀ page, memory.vaddrToPhysPage pml4 virtAddr = some page → translation memory virtAddr pml4 = some page.physAddr
  debug : (virtToPhys memory (some pml4) virtAddr).map DebugAddress.physAddr = translation memory virtAddr pml4
  loader : ∀ frame, translateUserPage memory pml4 (pageMask virtAddr) = some frame →
    translation memory virtAddr pml4 = some (frame + virtAddr % pageSize)

/-- The walkers agree with the processor unless the leaf is a large page with bits set below its frame. -/
theorem walkers_agree_iff (memory : PageMemory) (pml4 virtAddr : Nat) :
    WalkersAgree memory pml4 virtAddr ↔
      ∀ level entry, leaf memory virtAddr pml4 = some (level, entry) → entry / 2 ^ 12 % 2 ^ (9 * level) = 0 := by
  constructor
  · intro agree level entry hf
    have eq := agree.paging (leafAddress virtAddr level entry) (by rw [translation, hf]; rfl)
    rw [getPhysicalAddress_leaf, hf] at eq
    exact (masked_eq_leafAddress (level_le _ _ _ hf)).mp eq
  · intro clear
    have exact : ∀ level entry, leaf memory virtAddr pml4 = some (level, entry) →
        translation memory virtAddr pml4 = some (maskedAddress virtAddr level entry) := by
      intro level entry hf
      rw [(masked_eq_leafAddress (level_le _ _ _ hf)).mpr (clear level entry hf), translation, hf]
      rfl
    constructor
    · intro addr translated
      rw [getPhysicalAddress_leaf]
      cases hf : leaf memory virtAddr pml4 with
      | none =>
        rw [translation, hf] at translated
        exact nomatch translated
      | some node =>
        rw [exact node.1 node.2 hf] at translated
        exact Option.some.inj translated
    · intro page copied
      obtain ⟨level, entry, hf, rfl⟩ := vaddrToPhysPage_leaf copied
      exact exact level entry hf
    · exact virtToPhys_leaf
    · intro frame loaded
      obtain ⟨entry, hf, rfl⟩ := translateUserPage_leaf loaded
      rw [leaf_pageMask] at hf
      exact exact 0 entry hf

/-- One large page of the framebuffer at `0xFD000000`, with `PAGE_WC_LARGE`. -/
def framebufferTables : PageMemory := ⟨⟨fun _ => 0, fun _ => 0⟩,
  fun table i =>
    if i ≠ 0 then 0
    else if table = 0x1000 then 0x2007
    else if table = 0x2000 then 0x3007
    else if table = 0x3000 then 0xFD001087
    else 0, []⟩

theorem framebuffer_off_by_page : ¬ WalkersAgree framebufferTables 0x1000 0x123 := by
  intro agree
  have wrong : framebufferTables.getPhysicalAddress 0x1000 0x123 = 0xFD001123 := by decide
  have right : translation framebufferTables 0x123 0x1000 = some 0xFD000123 := by decide
  exact absurd (wrong.symm.trans (agree.paging _ right)) (by decide)

end

end RosKernel.Process
