import RosKernel.Memory.MapTables

/-! Address spaces made, copied and torn down: `kernel/task/task_kthread_constructor.cpp` and `task_destructor.cpp`.

`kernelPML4` is the frame of the kernel's own table.
-/

set_option autoImplicit false

namespace RosKernel.Process

open Memory

/-- An entry without its address: `entry & ~PAGE_ADDR_MASK`. -/
def flagBits (entry : Nat) : Nat := entry &&& 0xFFF0000000000FFF

def userHalf : Nat := 256

/-- The loop that sets `NewPML4[i] = KernelPML4[i]` above the user half. -/
def copyEntries (kernelPML4 new : Nat) (memory : PageMemory) : PageMemory := { memory with
  words := Function.update memory.words new fun i =>
    if userHalf ≤ i ∧ i < tableSize then memory.words kernelPML4 i else memory.words new i }

def hhdmPML4Index : Nat := 256

def createUserAddressSpace (kernelPML4 : Nat) (memory : PageMemory) : Nat × PageMemory :=
  let (new, memory) := memory.allocPage
  if new = 0 then (0, memory)
  else
    let memory := copyEntries kernelPML4 new (memory.clearPage new)
    (new, memory.write new hhdmPML4Index (memory.words kernelPML4 hhdmPML4Index))

/-- The loop over the entries of a table from entry `i` on; `clone` copies what an entry names. -/
def cloneEntries (clone : Nat → PageMemory → Option Nat × PageMemory) (src new : Nat) :
    Nat → Nat → PageMemory → Bool × PageMemory
  | _, 0, memory => (true, memory)
  | i, count + 1, memory =>
    if !present (memory.words src i) then cloneEntries clone src new (i + 1) count memory
    else
      match clone (entryAddr (memory.words src i)) memory with
      | (none, memory) => (false, memory)
      | (some phys, memory) =>
        cloneEntries clone src new (i + 1) count (memory.write new i (phys ||| flagBits (memory.words src i)))

/-- A page that a page table names: a new frame with the same data. -/
def clonePage (src : Nat) (memory : PageMemory) : Option Nat × PageMemory :=
  let (new, memory) := memory.allocPage
  if new = 0 then (none, memory)
  else (some new, { memory with words := Function.update memory.words new (memory.words src) })

/-- A table: a new one, with copies of what the entries name. -/
def cloneDirectory (clone : Nat → PageMemory → Option Nat × PageMemory) (src : Nat) (memory : PageMemory) :
    Option Nat × PageMemory :=
  let (new, memory) := memory.allocPage
  if new = 0 then (none, memory)
  else
    match cloneEntries clone src new 0 tableSize (memory.clearPage new) with
    | (false, memory) => (none, memory)
    | (true, memory) => (some new, memory)

/-- `CloneTable`; below the first level are pages. -/
def cloneTable : Nat → Nat → PageMemory → Option Nat × PageMemory
  | 0 => clonePage
  | level + 1 => cloneDirectory (cloneTable level)

/-- Zero if there is no memory. -/
def cloneUserAddressSpace (kernelPML4 source : Nat) (memory : PageMemory) : Nat × PageMemory :=
  let (new, memory) := createUserAddressSpace kernelPML4 memory
  if new = 0 then (0, memory)
  else
    match cloneEntries (cloneTable 3) source new 0 userHalf memory with
    | (false, memory) => (0, memory)
    | (true, memory) => (new, memory)

/-- A loop of `FreeUserAddressSpace` over the present entries of a table, from entry `i` on. -/
def freeEntries (visit : Nat → PageMemory → PageMemory) (table : Nat) : Nat → Nat → PageMemory → PageMemory
  | _, 0, memory => memory
  | i, count + 1, memory =>
    freeEntries visit table (i + 1) count
      (if present (memory.words table i) then visit (memory.words table i) memory else memory)

def freePage (pte : Nat) (memory : PageMemory) : PageMemory := memory.free (entryAddr pte)

/-- A large page is 512 frames. -/
def freePt (pde : Nat) (memory : PageMemory) : PageMemory :=
  if huge pde then
    let phys := entryAddr pde &&& 0xFFFFFFFFFFE00FFF
    { memory with
      frames := physicalFreePages memory.frames phys 512
      freed := memory.freed ++ (List.range 512).map fun k => phys + k * pageSize }
  else (freeEntries freePage (entryAddr pde) 0 tableSize memory).free (entryAddr pde)

/-- Nothing is done about a page of 1 GiB. -/
def freePd (pdpte : Nat) (memory : PageMemory) : PageMemory :=
  if huge pdpte then memory else (freeEntries freePt (entryAddr pdpte) 0 tableSize memory).free (entryAddr pdpte)

def freePdpt (pml4e : Nat) (memory : PageMemory) : PageMemory :=
  (freeEntries freePd (entryAddr pml4e) 0 tableSize memory).free (entryAddr pml4e)

def freeUserAddressSpace (cr3 : Nat) (memory : PageMemory) : PageMemory :=
  if cr3 = 0 then memory else (freeEntries freePdpt cr3 0 userHalf memory).free cr3

end RosKernel.Process
