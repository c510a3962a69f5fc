import RosKernel.Library.Bytes
import RosKernel.Library.Linked
import RosKernel.Library.Spans
import RosKernel.Memory.Word

/-! The kernel heap (`kmalloc.cpp`) over byte-addressed memory.

Block headers are fields in memory: the size at offset 0, the magic at 8 and the
next pointer at 16. A null pointer is address zero. What the page allocators
answer when the heap grows is an argument of the call. A loop over the free list
that visits more nodes than there are addresses has met a cycle, and the operation
has no result.
-/

set_option autoImplicit false

namespace RosKernel.Memory

open Library

def headerSize : Nat := 24

def heapAlign : Nat := 8

def magicFree : Nat := 0xfeedf00d

def magicAlloc : Nat := 0xcafebabe

def kmallocCanary : Nat := 0xDEADCAFEDEADCAFE

def tailCanaryBytes : Nat := 8

/-- `(v + (ALIGN - 1)) & ~(ALIGN - 1)`. -/
def alignUp (v : Nat) : Nat := add64 v (heapAlign - 1) &&& 0xFFFFFFFFFFFFFFF8

section

variable (mem : Bytes) (block : Nat)

def blockSize : Nat := load mem block 8

def blockMagic : Nat := load mem (block + 8) 4

def blockNext : Nat := load mem (block + 16) 8

def setSize (value : Nat) : Bytes := store mem block 8 value

def setMagic (value : Nat) : Bytes := store mem (block + 8) 4 value

def setNext (value : Nat) : Bytes := store mem (block + 16) 8 value

/-- `user_ptr + user_size - sizeof(U64)`, as both `Alloc` and `Free` compute it. -/
def canaryAddr : Nat :=
  sub64 (add64 (add64 block headerSize) (sub64 (blockSize mem block) headerSize)) tailCanaryBytes

def writeCanary : Bytes :=
  if tailCanaryBytes ≤ sub64 (blockSize mem block) headerSize then
    store mem (canaryAddr mem block) tailCanaryBytes kmallocCanary
  else mem

/-- `cur->magic = MAGIC_ALLOC; cur->next = nullptr;` and the canary. -/
def markAllocated : Bytes := writeCanary (setNext (setMagic mem block magicAlloc) block 0) block

/-- The memory after `cur` is cut in two: the new block behind it first, then `cur`. -/
def splitBlock (total : Nat) : Bytes :=
  let nb := add64 block total
  let behind := setMagic (setSize mem nb (sub64 (blockSize mem block) total)) nb magicFree
  let behind := setNext behind nb (blockNext behind block)
  markAllocated (setSize behind block total) block

def canaryBroken : Bool :=
  tailCanaryBytes ≤ sub64 (blockSize mem block) headerSize &&
    load mem (canaryAddr mem block) tailCanaryBytes != kmallocCanary

end

def pointer (addr : Nat) : Option Nat := if addr = 0 then none else some addr

def nextBlock (mem : Bytes) (block : Nat) : Option Nat := pointer (blockNext mem block)

def addressCount : Nat := 2 ^ 64

/-- The allocator's static variables and the memory they point into. `regions`
records the mapped heap regions; the code keeps only their total and bounds. -/
structure Heap where
  mem : Bytes
  freeList : Nat
  heapStart : Nat
  heapSize : Nat
  heapLow : Nat
  heapHigh : Nat
  regions : List Span

/-- What the page allocators answer when the heap grows: the virtual range (zero
for none), and for each page whether a frame was found and could be mapped. -/
structure GrowOutcome where
  base : Nat
  physOk : Nat → Bool
  mapOk : Nat → Bool

namespace Heap

/-- `Init`, when every page allocation succeeds; `vaddr` is the virtual range. -/
def init (mem : Bytes) (pages vaddr : Nat) : Heap :=
  let pages := if pages = 0 then 16 else pages
  let heapSize := mul64 pages pageSize
  { mem := setNext (setMagic (setSize mem vaddr heapSize) vaddr magicFree) vaddr 0
    freeList := vaddr
    heapStart := vaddr
    heapSize := heapSize
    heapLow := vaddr
    heapHigh := add64 vaddr heapSize
    regions := [⟨vaddr, heapSize⟩] }

/-- `if (prev) prev->next = target; else free_list = target;` -/
def relink (heap : Heap) (prev : Option Nat) (target : Nat) : Heap :=
  match prev with
  | none => { heap with freeList := target }
  | some block => { heap with mem := setNext heap.mem block target }

section

variable (heap : Heap)
include heap

/-- `first->size += second->size; first->next = second->next;` -/
def absorb (first second : Nat) : Heap :=
  let mem := setSize heap.mem first (add64 (blockSize heap.mem first) (blockSize heap.mem second))
  { heap with mem := setNext mem first (blockNext mem second) }

def coalesceNext (block : Nat) : Heap :=
  if blockNext heap.mem block = 0 then heap
  else if add64 block (blockSize heap.mem block) = blockNext heap.mem block then
    heap.absorb block (blockNext heap.mem block)
  else heap

def coalescePrev (prev : Option Nat) (block : Nat) : Heap :=
  match prev with
  | none => heap
  | some prev =>
    if add64 prev (blockSize heap.mem prev) = block then heap.absorb prev block else heap

def insertAndCoalesce (block : Nat) : Option Heap :=
  let heap := { heap with mem := setMagic heap.mem block magicFree }
  if heap.freeList = 0 then some { heap with mem := setNext heap.mem block 0, freeList := block }
  else
    match seek (nextBlock heap.mem) (fun cur => block ≤ cur) addressCount none (pointer heap.freeList) with
    | none => none
    | some (prev, cur) =>
      let heap := { heap with mem := setNext heap.mem block (cur.getD 0) }
      let heap := heap.relink prev block
      some ((heap.coalesceNext block).coalescePrev prev block)

/-- The sanity checks both search loops make before they read a node's size. -/
def suspicious (cur : Nat) : Bool :=
  cur < heap.heapLow || heap.heapHigh ≤ cur || cur % heapAlign != 0 || blockMagic heap.mem cur != magicFree

/-- Only the first loop checks that the bounds are set. -/
def boundsUnset : Bool := heap.heapLow = 0 || heap.heapHigh = 0

/-- Take `cur` off the list: cut in two when the rest can hold a block of its own,
whole otherwise. Both search loops do this. -/
def takeBlock (prev : Option Nat) (cur total : Nat) : Heap :=
  if add64 (add64 total headerSize) heapAlign ≤ blockSize heap.mem cur then
    relink { heap with mem := splitBlock heap.mem cur total } prev (add64 cur total)
  else
    let heap := heap.relink prev (blockNext heap.mem cur)
    { heap with mem := markAllocated heap.mem cur }

/-- One search loop. It stops at a node it refuses to follow, at a block that is
large enough, or at the end of the list. -/
def search (refuse : Nat → Bool) (total : Nat) : Option (Option Nat × Option Nat) :=
  seek (nextBlock heap.mem) (fun cur => refuse cur || total ≤ blockSize heap.mem cur) addressCount none
    (pointer heap.freeList)

end

def countMapped (outcome : GrowOutcome) (growPages : Nat) : Nat :=
  ((List.range growPages).takeWhile fun i => outcome.physOk i && outcome.mapOk i).length

def growPages (total : Nat) : Nat := max (sub64 (add64 total pageSize) 1 / pageSize) 16

def grow (heap : Heap) (total : Nat) (outcome : GrowOutcome) : Option (Heap × Bool) :=
  if outcome.base = 0 then some (heap, false)
  else
    let mapped := countMapped outcome (growPages total)
    if mapped = 0 then some (heap, false)
    else
      let bytes := mul64 mapped pageSize
      let nb := outcome.base
      let mem := setNext (setMagic (setSize heap.mem nb bytes) nb magicFree) nb 0
      match insertAndCoalesce { heap with mem := mem } nb with
      | none => none
      | some heap =>
        let newHigh := add64 nb bytes
        some ({ heap with
          heapSize := add64 heap.heapSize bytes
          heapLow := if heap.heapLow = 0 ∨ nb < heap.heapLow then nb else heap.heapLow
          heapHigh := if heap.heapHigh = 0 ∨ heap.heapHigh < newHigh then newHigh else heap.heapHigh
          regions := ⟨nb, bytes⟩ :: heap.regions }, true)

def retry (heap : Heap) (total : Nat) : Option (Nat × Heap) :=
  match heap.search heap.suspicious total with
  | none => none
  | some (_, none) => some (0, heap)
  | some (prev, some cur) =>
    if heap.suspicious cur then some (0, heap)
    else some (add64 cur headerSize, heap.takeBlock prev cur total)

def totalSize (size : Nat) : Nat := add64 (alignUp (add64 size tailCanaryBytes)) headerSize

def alloc (heap : Heap) (size : Nat) (outcome : GrowOutcome) : Option (Nat × Heap) :=
  if size = 0 then some (0, heap)
  else if 2 ^ 64 - 1 - tailCanaryBytes < size then some (0, heap)
  else
    let total := totalSize size
    let refuse cur := heap.boundsUnset || heap.suspicious cur
    match heap.search refuse total with
    | none => none
    | some (prev, some cur) =>
      if refuse cur then some (0, heap)
      else some (add64 cur headerSize, heap.takeBlock prev cur total)
    | some (_, none) =>
      match heap.grow total outcome with
      | none => none
      | some (heap, false) => some (0, heap)
      | some (heap, true) => heap.retry total

/-- The flag says that a broken canary was reported; a bad magic panics and has no result. -/
def free (heap : Heap) (ptr : Nat) : Option (Heap × Bool) :=
  if ptr = 0 then some (heap, false)
  else
    let block := sub64 ptr headerSize
    if heap.boundsUnset then some (heap, false)
    else if block < heap.heapLow ∨ heap.heapHigh ≤ block then some (heap, false)
    else if blockMagic heap.mem block ≠ magicAlloc then none
    else
      match insertAndCoalesce { heap with mem := setMagic heap.mem block magicFree } block with
      | none => none
      | some freed => some (freed, canaryBroken heap.mem block)

end Heap

end RosKernel.Memory
