import RosKernel.Library.Bytes
import RosKernel.Library.Runs
import RosKernel.Memory.Physical

/-! The allocator of DMA buffers, `kernel/mm/dma/dmamapping.cpp`, once its pool is initialised.

A buffer comes from the pool, with a guard page behind it if there is room for one, or else
from pages of its own. What the other allocators answer is an argument.
-/

set_option autoImplicit false

namespace RosKernel.Memory

open Library

/-- The page tables give each virtual page a frame, and the frames hold the bytes. -/
structure MappedMemory where
  frame : Nat → Nat
  bytes : Bytes

namespace MappedMemory

def physical (memory : MappedMemory) (addr : Nat) : Nat := memory.frame (addr / pageSize) * pageSize + addr % pageSize

def readByte (memory : MappedMemory) (addr : Nat) : UInt8 := memory.bytes (memory.physical addr)

def writeByte (memory : MappedMemory) (addr : Nat) (value : UInt8) : MappedMemory := { memory with
  bytes := Function.update memory.bytes (memory.physical addr) value }

def memset (memory : MappedMemory) (dst : Nat) (value : UInt8) : Nat → MappedMemory
  | 0 => memory
  | n + 1 => (memory.memset dst value n).writeByte (add64 dst n) value

/-- The leaves that `MapPages` writes. -/
def mapPages (memory : MappedMemory) (phys virt : Nat) : Nat → MappedMemory
  | 0 => memory
  | n + 1 =>
    let mapped := memory.mapPages phys virt n
    let currentVirt := add64 virt (n * pageSize)
    let currentPhys := add64 phys (n * pageSize)
    { mapped with frame := Function.update mapped.frame (currentVirt / pageSize) (currentPhys / pageSize) }

end MappedMemory

def dmaGuardPagesDefault : Nat := 1
def dmaGuardPattern : UInt8 := 0xA5

/-- `(SIZE_T)-1`, the index of a buffer outside the pool. -/
def noIndex : Nat := 2 ^ 64 - 1

structure DMABuffer where
  physAddr : Nat
  virtAddr : Nat
  size : Nat
  pages : Nat
  guardPages : Nat
  totalPages : Nat
  requestedBytes : Nat
  firstIndex : Nat
  deriving DecidableEq

def guardBytes (b : DMABuffer) : Nat := if b.guardPages = 0 then 0 else mul64 b.guardPages pageSize

def guardAddr (b : DMABuffer) : Nat := add64 b.virtAddr (mul64 b.pages pageSize)

def fillGuardRegion (memory : MappedMemory) (b : DMABuffer) : MappedMemory :=
  memory.memset (guardAddr b) dmaGuardPattern (guardBytes b)

def guardRegionIntact (memory : MappedMemory) (b : DMABuffer) : Bool :=
  (List.range (guardBytes b)).all fun i => memory.readByte (add64 (guardAddr b) i) == dmaGuardPattern

structure DMAStats where
  poolPages : Nat
  poolFreePages : Nat
  allocCalls : Nat
  fallbackAllocs : Nat
  failedAllocs : Nat
  freedBuffers : Nat

structure DMAAlloc where
  poolPhys : Nat
  poolVirt : Nat
  poolPages : Nat
  bitmap : Nat → BitVec 8
  stats : DMAStats
  memory : MappedMemory

/-- What the allocators answer to an attempt outside the pool; the frames and the virtual range are
given back unless the buffer is served. -/
inductive Fallback where
  | noFrames
  | noRange
  | mapFails (phys virt mapped : Nat)
  | noHeap (phys virt : Nat)
  | served (phys virt : Nat)

namespace DMAAlloc

variable (alloc : DMAAlloc)

def freePagesUnsafe : Nat :=
  ((List.range alloc.poolPages).filter fun i => !bitmapTest alloc.bitmap i).length

/-- A guard option, unless the request leaves no room for it in 64 bits. -/
def guardFor (count guardPages : Nat) : Nat := if guardPages ≠ 0 ∧ count > sub64 (2 ^ 64 - 1) guardPages then 0 else guardPages

/-- The buffer's usable area is cleared and its guard is filled. -/
def prepare (b : DMABuffer) : DMAAlloc := { alloc with
  memory := fillGuardRegion (alloc.memory.memset b.virtAddr 0 b.size) b }

def poolBuffer (count guardPages start : Nat) : DMABuffer where
  firstIndex := start
  pages := count
  guardPages := guardPages
  totalPages := add64 count guardPages
  size := mul64 count pageSize
  requestedBytes := mul64 count pageSize
  physAddr := add64 alloc.poolPhys (mul64 start pageSize)
  virtAddr := add64 alloc.poolVirt (mul64 start pageSize)

/-- The attempts in the pool, one for each guard option. -/
def allocateInPool (alloc : DMAAlloc) (count : Nat) (heap : Bool) : List Nat → Option (Option DMABuffer × DMAAlloc)
  | [] => none
  | option :: options =>
    let guardPages := guardFor count option
    let totalNeeded := add64 count guardPages
    if totalNeeded = 0 ∨ totalNeeded > alloc.poolPages then alloc.allocateInPool count heap options
    else match findFrames alloc.bitmap alloc.poolPages totalNeeded with
      | none => alloc.allocateInPool count heap options
      | some start =>
        let marked := { alloc with bitmap := bitmapSetRange alloc.bitmap start totalNeeded }
        if heap then
          let b := alloc.poolBuffer count guardPages start
          some (some b, marked.prepare b)
        else some (none, { alloc with bitmap := bitmapClearRange marked.bitmap start totalNeeded })

def ownBuffer (count guardPages phys virt : Nat) : DMABuffer where
  firstIndex := noIndex
  pages := count
  guardPages := guardPages
  totalPages := add64 count guardPages
  size := mul64 count pageSize
  requestedBytes := mul64 count pageSize
  physAddr := phys
  virtAddr := virt

def mapped (phys virt count : Nat) : DMAAlloc := { alloc with
  memory := alloc.memory.mapPages phys virt count }

/-- The attempts outside the pool, each with what the other allocators answer to it. -/
def allocateOutside (alloc : DMAAlloc) (count : Nat) : List (Nat × Fallback) → Option DMABuffer × DMAAlloc
  | [] => (none, { alloc with stats.failedAllocs := add64 alloc.stats.failedAllocs 1 })
  | (option, answer) :: rest =>
    let guardPages := guardFor count option
    let totalPages := add64 count guardPages
    if totalPages = 0 then alloc.allocateOutside count rest
    else match answer with
      | .noFrames | .noRange => alloc.allocateOutside count rest
      | .mapFails phys virt done => (alloc.mapped phys virt done).allocateOutside count rest
      | .noHeap phys virt => (alloc.mapped phys virt totalPages).allocateOutside count rest
      | .served phys virt =>
        let b := ownBuffer count guardPages phys virt
        let prepared := (alloc.mapped phys virt totalPages).prepare b
        (some b, { prepared with stats.fallbackAllocs := add64 prepared.stats.fallbackAllocs 1 })

/-- `heap` says whether `kmalloc` serves a buffer from the pool. -/
def allocateDMAPages (count : Nat) (heap : Bool) (first second : Fallback) : Option DMABuffer × DMAAlloc :=
  if count = 0 then (none, alloc)
  else
    let called := { alloc with stats.allocCalls := add64 alloc.stats.allocCalls 1 }
    match called.allocateInPool count heap [dmaGuardPagesDefault, 0] with
    | some result => result
    | none => called.allocateOutside count [(dmaGuardPagesDefault, first), (0, second)]

def allocateDMABytes (bytes : Nat) (heap : Bool) (first second : Fallback) : Option DMABuffer × DMAAlloc :=
  if bytes = 0 then (none, alloc)
  else
    let pages := sub64 (add64 bytes pageSize) 1 / pageSize
    let result := alloc.allocateDMAPages pages heap first second
    (result.1.map ({ · with requestedBytes := bytes }), result.2)

/-- Both areas of a buffer are cleared. -/
def wipe (b : DMABuffer) : DMAAlloc := { alloc with
  memory := (alloc.memory.memset b.virtAddr 0 (mul64 b.pages pageSize)).memset
    (add64 b.virtAddr (mul64 b.pages pageSize)) 0 (mul64 b.guardPages pageSize) }

def freeDMABuffer (b : DMABuffer) : DMAAlloc :=
  let totalPages := add64 b.pages b.guardPages
  let freed := add64 alloc.stats.freedBuffers 1
  if b.firstIndex = noIndex then
    if totalPages = 0 then { alloc with stats.freedBuffers := freed }
    else { alloc.wipe b with stats.freedBuffers := freed }
  else if alloc.poolPages = 0 ∨ totalPages = 0 then alloc
  else if b.virtAddr < alloc.poolVirt then alloc
  else if add64 alloc.poolVirt (mul64 alloc.poolPages pageSize) ≤ b.virtAddr then alloc
  else if (b.virtAddr - alloc.poolVirt) % pageSize ≠ 0 then alloc
  else
    let idx := (b.virtAddr - alloc.poolVirt) / pageSize
    if add64 idx totalPages > alloc.poolPages then alloc
    else { alloc.wipe b with
      bitmap := bitmapClearRange alloc.bitmap idx totalPages
      stats.freedBuffers := freed }

/-- What `GetStats` reports: the pages of the pool and the free ones, then the counters. -/
def getStats : DMAStats := { alloc.stats with
  poolFreePages := if alloc.poolPages = 0 then 0 else alloc.freePagesUnsafe }

end DMAAlloc

structure DMARun where
  alloc : DMAAlloc
  live : List DMABuffer

inductive DMAOp where
  | allocatePages (count : UInt64) (heap : Bool) (first second : Fallback)
  | allocateBytes (bytes : UInt64) (heap : Bool) (first second : Fallback)
  | free (b : DMABuffer)
  | write (b : DMABuffer) (offset : Nat) (value : UInt8)
  | deviceWrite (b : DMABuffer) (offset : Nat) (value : UInt8)

namespace DMARun

def serve (run : DMARun) (result : Option DMABuffer × DMAAlloc) : DMARun := ⟨result.2, result.1.toList ++ run.live⟩

def step (run : DMARun) : DMAOp → Option DMARun
  | .allocatePages count heap first second =>
    some (run.serve (run.alloc.allocateDMAPages count.toNat heap first second))
  | .allocateBytes bytes heap first second =>
    some (run.serve (run.alloc.allocateDMABytes bytes.toNat heap first second))
  | .free b => some ⟨run.alloc.freeDMABuffer b, run.live.erase b⟩
  | .write b offset value => some { run with
      alloc.memory := run.alloc.memory.writeByte (b.virtAddr + offset) value }
  | .deviceWrite b offset value => some { run with
      alloc.memory.bytes := Function.update run.alloc.memory.bytes (b.physAddr + offset) value }

end DMARun

end RosKernel.Memory
