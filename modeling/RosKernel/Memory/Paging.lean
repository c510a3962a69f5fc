import RosKernel.Memory.Physical
import RosKernel.Memory.Virtual

/-! Page tables, `kernel/mm/mappage.cpp`.

A table is a frame of 512 words, and `words` gives the words of every frame. Levels
are numbered from the leaf: the entries of level 0 name pages, those of level 3 are
in the table that `CR3` names. The TLB is not modelled.
-/

set_option autoImplicit false

namespace RosKernel.Memory

def pagePresent : Nat := 0x1
def pageRW : Nat := 0x2
def pageUser : Nat := 0x4
def pagePS : Nat := 0x80
def pageNX : Nat := 2 ^ 63
def pageAddrMask : Nat := 0x000FFFFFFFFFF000

def tableSize : Nat := 512

/-- Physical memory as the page tables use it. `freed` is a history: the addresses of single
frames given back so far. -/
structure PageMemory where
  frames : Bitmaps
  words : Nat → Nat → Nat
  freed : List Nat

def present (entry : Nat) : Bool := entry &&& pagePresent != 0

def huge (entry : Nat) : Bool := entry &&& pagePS != 0

def entryAddr (entry : Nat) : Nat := entry &&& pageAddrMask

def tableIndex (level virtAddr : Nat) : Nat := (virtAddr >>> (12 + 9 * level)) &&& 0x1FF

namespace PageMemory

variable (memory : PageMemory)

def write (table idx entry : Nat) : PageMemory := { memory with
  words := Function.update memory.words table (Function.update (memory.words table) idx entry) }

/-- `Memset` of a whole page. -/
def clearPage (frame : Nat) : PageMemory := { memory with
  words := Function.update memory.words frame fun _ => 0 }

/-- `PhysicalFreePages(addr, 1)`. -/
def free (addr : Nat) : PageMemory := { memory with
  frames := physicalFreePages memory.frames addr 1
  freed := memory.freed ++ [addr] }

/-- `PhysicalAllocPages(1)`. -/
def allocPage : Nat × PageMemory :=
  let (frame, frames) := physicalAllocPages memory.frames 1
  (frame, { memory with frames := frames })

/-- One level of `MapPages`: the table that an entry names, made if it is absent. Only
below the top level a huge page is refused. -/
def enterTable (table idx : Nat) (checkHuge : Bool) : Option Nat × PageMemory :=
  let entry := memory.words table idx
  if !present entry then
    let (frame, memory) := memory.allocPage
    if frame = 0 then (none, memory)
    else (some frame, (memory.clearPage frame).write table idx (frame ||| pagePresent ||| pageRW ||| pageUser))
  else if checkHuge && huge entry then (none, memory)
  else
    let memory := if entry &&& pageRW = 0 then memory.write table idx (entry ||| pageRW) else memory
    (some (entryAddr (memory.words table idx)), memory)

/-- The levels of `MapPages` down to the table at the end of a path. -/
def enterTables (memory : PageMemory) (table : Nat) : List (Nat × Bool) → Option Nat × PageMemory
  | [] => (some table, memory)
  | (idx, checkHuge) :: path =>
    match memory.enterTable table idx checkHuge with
    | (none, memory) => (none, memory)
    | (some next, memory) => memory.enterTables next path

/-- `MapPages` of one page. -/
def mapPage (pml4 physAddr virtAddr flags : Nat) : Bool × PageMemory :=
  match memory.enterTables pml4
      [(tableIndex 3 virtAddr, false), (tableIndex 2 virtAddr, true), (tableIndex 1 virtAddr, true)] with
  | (none, memory) => (false, memory)
  | (some pt, memory) => (true, memory.write pt (tableIndex 0 virtAddr) (physAddr ||| flags))

/-- The loop of `MapPages` from page `i` on. -/
def mapPagesFrom (memory : PageMemory) (pml4 physAddr virtAddr flags : Nat) : Nat → Nat → Bool × PageMemory
  | _, 0 => (true, memory)
  | i, count + 1 =>
    match memory.mapPage pml4 (add64 physAddr (mul64 i pageSize)) (add64 virtAddr (mul64 i pageSize)) flags with
    | (false, memory) => (false, memory)
    | (true, memory) => memory.mapPagesFrom pml4 physAddr virtAddr flags (i + 1) count

def mapPages (pml4 physAddr virtAddr count flags : Nat) : Bool × PageMemory :=
  memory.mapPagesFrom pml4 physAddr virtAddr flags 0 count

/-- `GetPhysicalAddress`; zero if the address is not mapped. -/
def getPhysicalAddress (pml4 virtAddr : Nat) : Nat :=
  let pml4e := memory.words pml4 (tableIndex 3 virtAddr)
  if !present pml4e then 0
  else
    let pdpte := memory.words (entryAddr pml4e) (tableIndex 2 virtAddr)
    if !present pdpte then 0
    else if huge pdpte then add64 (entryAddr pdpte) (virtAddr &&& (2 ^ 30 - 1))
    else
      let pde := memory.words (entryAddr pdpte) (tableIndex 1 virtAddr)
      if !present pde then 0
      else if huge pde then add64 (entryAddr pde) (virtAddr &&& (2 ^ 21 - 1))
      else
        let pte := memory.words (entryAddr pde) (tableIndex 0 virtAddr)
        if !present pte then 0
        else add64 (entryAddr pte) (virtAddr &&& (pageSize - 1))

def emptyTable (table : Nat) : Bool :=
  (List.range tableSize).all fun i => !present (memory.words table i)

/-- Clear the entry that names a table without entries, and free the table. -/
def reclaim (parent idx table : Nat) : PageMemory :=
  if memory.emptyTable table then
    let frame := entryAddr (memory.words parent idx)
    (memory.write parent idx 0).free frame
  else memory

/-- `UnmapPage` before the virtual pool comes in; the flag says whether a mapping was removed. -/
def unmapEntry (pml4 virtAddr : Nat) : Bool × PageMemory :=
  let pml4e := memory.words pml4 (tableIndex 3 virtAddr)
  if !present pml4e then (false, memory)
  else
    let pdpt := entryAddr pml4e
    let pdpte := memory.words pdpt (tableIndex 2 virtAddr)
    if !present pdpte || huge pdpte then (false, memory)
    else
      let pd := entryAddr pdpte
      let pde := memory.words pd (tableIndex 1 virtAddr)
      if !present pde || huge pde then (false, memory)
      else
        let pt := entryAddr pde
        if !present (memory.words pt (tableIndex 0 virtAddr)) then (false, memory)
        else
          let memory := memory.write pt (tableIndex 0 virtAddr) 0
          let memory := memory.reclaim pd (tableIndex 1 virtAddr) pt
          let memory := memory.reclaim pdpt (tableIndex 2 virtAddr) pd
          (true, memory.reclaim pml4 (tableIndex 3 virtAddr) pdpt)

/-- `SetFlags`: new flags for a mapped page. -/
def setFlags (pml4 virtAddr flags : Nat) : Bool × PageMemory :=
  let pml4e := memory.words pml4 (tableIndex 3 virtAddr)
  if !present pml4e then (false, memory)
  else
    let pdpte := memory.words (entryAddr pml4e) (tableIndex 2 virtAddr)
    if !present pdpte || huge pdpte then (false, memory)
    else
      let pde := memory.words (entryAddr pdpte) (tableIndex 1 virtAddr)
      if !present pde || huge pde then (false, memory)
      else
        let pte := memory.words (entryAddr pde) (tableIndex 0 virtAddr)
        if !present pte then (false, memory)
        else (true, memory.write (entryAddr pde) (tableIndex 0 virtAddr) (entryAddr pte ||| flags))

def protFlags (prot : Nat) : Nat :=
  (pageUser ||| if prot &&& 7 ≠ 0 then pagePresent else 0) |||
    (if prot &&& 2 ≠ 0 then pageRW else 0) ||| if prot &&& 4 ≠ 0 then 0 else pageNX

/-- The loop of `UpdatePageTableProt`. The number in `CR3` is used as a pointer, so the top-level
table is read at that virtual address; the kernel stops if nothing is mapped there. -/
def updateProtFrom (memory : PageMemory) (cr3 start flags : Nat) : Nat → Nat → Option PageMemory
  | _, 0 => some memory
  | i, pages + 1 =>
    let pml4 := memory.getPhysicalAddress cr3 cr3
    if pml4 = 0 then none
    else
      match memory.setFlags pml4 (add64 start (mul64 i pageSize)) flags with
      | (false, memory) => some memory
      | (true, memory) => memory.updateProtFrom cr3 start flags (i + 1) pages

def updatePageTableProt (cr3 start len prot : Nat) : Option PageMemory :=
  memory.updateProtFrom cr3 start (protFlags prot) 0 (sub64 (add64 len pageSize) 1 / pageSize)

end PageMemory

/-- The allocators and tables that the paging calls work on. -/
structure Paging where
  memory : PageMemory
  pool : VirtualPool

namespace Paging

/-- `UnmapPage`. The address goes back to the virtual pool whether or not it came from there. -/
def unmapPage (paging : Paging) (pml4 virtAddr : Nat) : Option (Bool × Paging) :=
  match paging.memory.unmapEntry pml4 virtAddr with
  | (false, memory) => some (false, { paging with memory := memory })
  | (true, memory) =>
    (virtualFreePages paging.pool virtAddr 1).map fun (pool, _) => (true, ⟨memory, pool⟩)

/-- One page of `UnmapRange`. -/
def unmapOne (paging : Paging) (pml4 virtAddr : Nat) (freePhysical : Bool) : Option Paging :=
  let physAddr := paging.memory.getPhysicalAddress pml4 virtAddr
  if physAddr = 0 then some paging
  else
    (paging.unmapPage pml4 virtAddr).map fun (_, paging) =>
      if freePhysical then { paging with memory := paging.memory.free physAddr } else paging

/-- The loop of `UnmapRange` from page `i` on. -/
def unmapFrom (paging : Paging) (pml4 start : Nat) (freePhysical : Bool) : Nat → Nat → Option Paging
  | _, 0 => some paging
  | i, pages + 1 =>
    (paging.unmapOne pml4 (add64 start (mul64 i pageSize)) freePhysical).bind fun paging =>
      paging.unmapFrom pml4 start freePhysical (i + 1) pages

def unmapRange (paging : Paging) (pml4 start size : Nat) (freePhysical : Bool) : Option Paging :=
  paging.unmapFrom pml4 start freePhysical 0 (sub64 (add64 size pageSize) 1 / pageSize)

end Paging

end RosKernel.Memory
