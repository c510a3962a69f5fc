import Mathlib.Data.List.Pairwise
import Mathlib.Data.List.Perm.Basic
import RosKernel.Memory.DmaPool

/-! The buffers of the DMA pool against its bitmap and its memory. -/

set_option autoImplicit false

namespace RosKernel.Memory

open Library List

/-! ## Memory behind the page tables -/

namespace MappedMemory

variable {memory : MappedMemory} {phys virt count : Nat}

@[simp] theorem frame_memset (memory : MappedMemory) (dst : Nat) (value : UInt8) (n : Nat) :
    (memory.memset dst value n).frame = memory.frame := by
  induction n with
  | zero => rfl
  | succ n ih => exact ih

theorem physical_congr {other : MappedMemory} (eq : other.frame = memory.frame) (addr : Nat) :
    other.physical addr = memory.physical addr := by
  unfold physical
  rw [eq]

theorem bytes_memset {dst base : Nat} (value : UInt8) {n : Nat}
    (linear : ∀ i < n, memory.physical (add64 dst i) = base + i) (pos : Nat) :
    (memory.memset dst value n).bytes pos = if base ≤ pos ∧ pos < base + n then value else memory.bytes pos := by
  induction n with
  | zero => exact (if_neg (by omega)).symm
  | succ n ih =>
    have last : (memory.memset dst value n).physical (add64 dst n) = base + n := by
      rw [physical_congr (frame_memset ..)]
      exact linear n (Nat.lt_succ_self n)
    have pre := ih fun i lt => linear i (Nat.lt_succ_of_lt lt)
    simp only [memset, writeByte, last, Function.update_apply, pre]
    by_cases isLast : pos = base + n
    · rw [if_pos isLast, if_pos (by omega)]
    · rw [if_neg isLast]
      exact if_congr (by omega) rfl rfl

@[simp] theorem bytes_mapPages (memory : MappedMemory) (phys virt count : Nat) :
    (memory.mapPages phys virt count).bytes = memory.bytes := by
  induction count with
  | zero => rfl
  | succ count ih => exact ih

theorem frame_mapPages (virtEnds : virt + count * pageSize ≤ 2 ^ 64) (physEnds : phys + count * pageSize ≤ 2 ^ 64)
    (virtAligned : virt % pageSize = 0) (physAligned : phys % pageSize = 0) (page : Nat) :
    (memory.mapPages phys virt count).frame page =
      if virt / pageSize ≤ page ∧ page < virt / pageSize + count then phys / pageSize + (page - virt / pageSize)
      else memory.frame page := by
  induction count with
  | zero => exact (if_neg (by omega)).symm
  | succ count ih =>
    have pages : add64 virt (count * pageSize) / pageSize = virt / pageSize + count ∧
        add64 phys (count * pageSize) / pageSize = phys / pageSize + count ∧
          virt + count * pageSize ≤ 2 ^ 64 ∧ phys + count * pageSize ≤ 2 ^ 64 := by
      simp only [pageSize] at virtEnds physEnds virtAligned physAligned ⊢
      rw [add64_eq (by omega), add64_eq (by omega)]
      omega
    obtain ⟨virtPage, physPage, virtBefore, physBefore⟩ := pages
    simp only [mapPages, virtPage, physPage, Function.update_apply, ih virtBefore physBefore]
    by_cases isLast : page = virt / pageSize + count
    · rw [if_pos isLast, if_pos (by omega)]
      omega
    · rw [if_neg isLast]
      exact if_congr (by omega) rfl rfl

/-- Consecutive pages with consecutive frames. -/
def Mapped (memory : MappedMemory) (phys virt count : Nat) : Prop :=
  ∀ i < count, memory.frame (virt / pageSize + i) = phys / pageSize + i

theorem Mapped.physical (mapped : memory.Mapped phys virt count) (virtAligned : virt % pageSize = 0)
    (physAligned : phys % pageSize = 0) {off : Nat} (hin : off < count * pageSize) :
    memory.physical (virt + off) = phys + off := by
  unfold MappedMemory.physical
  simp only [pageSize] at virtAligned physAligned hin ⊢
  have page : (virt + off) / 4096 = virt / 4096 + off / 4096 := by omega
  have frame := mapped (off / 4096) (by omega)
  simp only [pageSize] at frame
  rw [page, frame]
  omega

end MappedMemory

/-! ## A buffer and its memory -/

/-- Two ranges of addresses have none in common. -/
def RangesApart (start len other otherLen : Nat) : Prop := start + len ≤ other ∨ other + otherLen ≤ start

instance (start len other otherLen : Nat) : Decidable (RangesApart start len other otherLen) :=
  inferInstanceAs (Decidable (_ ∨ _))

namespace DMABuffer

def bytes (b : DMABuffer) : Nat := b.totalPages * pageSize

/-- The fields of a buffer agree with each other. -/
structure Shaped (b : DMABuffer) : Prop where
  positive : 0 < b.pages
  total : b.totalPages = b.pages + b.guardPages
  size : b.size = b.pages * pageSize
  requested : b.requestedBytes ≤ b.size
  physAligned : b.physAddr % pageSize = 0
  virtAligned : b.virtAddr % pageSize = 0
  notNull : 0 < b.virtAddr
  physEnds : b.physAddr + b.bytes ≤ 2 ^ 64
  virtEnds : b.virtAddr + b.bytes ≤ 2 ^ 64

def MappedIn (b : DMABuffer) (memory : MappedMemory) : Prop := memory.Mapped b.physAddr b.virtAddr b.totalPages

def Apart (b c : DMABuffer) : Prop :=
  RangesApart b.physAddr b.bytes c.physAddr c.bytes ∧ RangesApart b.virtAddr b.bytes c.virtAddr c.bytes

variable {b c : DMABuffer} {memory : MappedMemory}

theorem Apart.symm (ne : b.Apart c) : c.Apart b := ⟨Or.symm ne.1, Or.symm ne.2⟩

instance : Std.Symm Apart := ⟨fun _ _ => Apart.symm⟩

section

variable (shaped : b.Shaped)
include shaped

theorem Shaped.bytes_eq : b.bytes = b.size + b.guardPages * pageSize := by
  unfold bytes
  rw [shaped.total, shaped.size, Nat.add_mul]

theorem Shaped.sizes : 0 < b.size ∧ mul64 b.pages pageSize = b.size ∧
    mul64 b.guardPages pageSize = b.guardPages * pageSize ∧ guardBytes b = b.guardPages * pageSize ∧
      add64 b.pages b.guardPages = b.totalPages := by
  have pos := shaped.positive
  have total := shaped.total
  have size := shaped.size
  have ends := shaped.virtEnds
  have notNull := shaped.notNull
  rw [shaped.bytes_eq] at ends
  have guard : mul64 b.guardPages pageSize = b.guardPages * pageSize := mul64_eq (by omega)
  simp only [pageSize] at size ends guard ⊢
  refine ⟨by omega, ?_, guard, ?_, ?_⟩
  · rw [size]
    exact mul64_eq (by omega)
  · unfold guardBytes
    split
    case isTrue none => rw [none, Nat.zero_mul]
    case isFalse => exact guard
  · rw [total]
    exact add64_eq (by omega)

section

variable (mapped : b.MappedIn memory)
include mapped

theorem Shaped.translate {off : Nat} (hin : off < b.bytes) :
    add64 b.virtAddr off = b.virtAddr + off ∧ memory.physical (b.virtAddr + off) = b.physAddr + off := by
  have ends := shaped.virtEnds
  exact ⟨add64_eq (by omega), mapped.physical shaped.virtAligned shaped.physAligned hin⟩

theorem Shaped.translate_guard {i : Nat} (hin : i < b.guardPages * pageSize) :
    add64 (add64 b.virtAddr (mul64 b.pages pageSize)) i = b.virtAddr + (b.size + i) ∧
      memory.physical (b.virtAddr + (b.size + i)) = b.physAddr + b.size + i := by
  obtain ⟨_, size, _⟩ := shaped.sizes
  have bytes := shaped.bytes_eq
  have ends := shaped.virtEnds
  have within : b.size + i < b.bytes := by omega
  have h := shaped.translate mapped within
  have guardStart : b.virtAddr + b.size < 2 ^ 64 := by omega
  rw [size, add64_eq guardStart, add64_eq (by omega)]
  exact ⟨Nat.add_assoc .., h.2.trans (Nat.add_assoc ..).symm⟩

theorem Shaped.bytes_usable (value : UInt8) (pos : Nat) : (memory.memset b.virtAddr value b.size).bytes pos =
      if b.physAddr ≤ pos ∧ pos < b.physAddr + b.size then value else memory.bytes pos := by
  have bytes := shaped.bytes_eq
  refine MappedMemory.bytes_memset value (fun i lt => ?_) pos
  have within : i < b.bytes := by omega
  obtain ⟨sum, h⟩ := shaped.translate mapped within
  rw [sum, h]

theorem Shaped.bytes_guard (value : UInt8) (pos : Nat) :
    (memory.memset (add64 b.virtAddr (mul64 b.pages pageSize)) value (b.guardPages * pageSize)).bytes pos =
      if b.physAddr + b.size ≤ pos ∧ pos < b.physAddr + b.bytes then value else memory.bytes pos := by
  rw [shaped.bytes_eq, ← Nat.add_assoc]
  refine MappedMemory.bytes_memset value (fun i lt => ?_) pos
  obtain ⟨sum, h⟩ := shaped.translate_guard mapped lt
  rw [sum, h]

end

end

/-- Nothing but the guard pattern is in the guard. -/
def Guarded (b : DMABuffer) (memory : MappedMemory) : Prop :=
  ∀ pos, b.physAddr + b.size ≤ pos → pos < b.physAddr + b.bytes → memory.bytes pos = dmaGuardPattern

theorem Shaped.guardRegionIntact (shaped : b.Shaped) (mapped : b.MappedIn memory) (guarded : b.Guarded memory) :
    guardRegionIntact memory b = true := by
  obtain ⟨_, _, _, guard, _⟩ := shaped.sizes
  have bytes := shaped.bytes_eq
  refine all_eq_true.mpr fun i mem => beq_iff_eq.mpr ?_
  rw [guard] at mem
  have lt := mem_range.mp mem
  obtain ⟨sum, h⟩ := shaped.translate_guard mapped lt
  unfold MappedMemory.readByte guardAddr
  rw [sum, h]
  exact guarded _ (by omega) (by omega)

end DMABuffer

namespace DMAAlloc

section

variable {alloc : DMAAlloc} {b : DMABuffer}

@[simp] theorem frame_prepare (alloc : DMAAlloc) (b : DMABuffer) : (alloc.prepare b).memory.frame = alloc.memory.frame := by
  simp [prepare, fillGuardRegion]

@[simp] theorem frame_wipe (alloc : DMAAlloc) (b : DMABuffer) : (alloc.wipe b).memory.frame = alloc.memory.frame := by
  simp [wipe]

theorem bytes_prepare (shaped : b.Shaped) (mapped : b.MappedIn alloc.memory) (pos : Nat) :
    (alloc.prepare b).memory.bytes pos =
      if b.physAddr + b.size ≤ pos ∧ pos < b.physAddr + b.bytes then dmaGuardPattern
      else if b.physAddr ≤ pos ∧ pos < b.physAddr + b.size then 0 else alloc.memory.bytes pos := by
  obtain ⟨_, _, _, guard, _⟩ := shaped.sizes
  have still : b.MappedIn (alloc.memory.memset b.virtAddr 0 b.size) := fun i lt => by
    rw [MappedMemory.frame_memset]
    exact mapped i lt
  unfold prepare fillGuardRegion guardAddr
  rw [guard, shaped.bytes_guard still, shaped.bytes_usable mapped]

theorem bytes_wipe (shaped : b.Shaped) (mapped : b.MappedIn alloc.memory) {pos : Nat}
    (out : pos < b.physAddr ∨ b.physAddr + b.bytes ≤ pos) : (alloc.wipe b).memory.bytes pos = alloc.memory.bytes pos := by
  obtain ⟨_, size, guard, _⟩ := shaped.sizes
  have bytes := shaped.bytes_eq
  have still : b.MappedIn (alloc.memory.memset b.virtAddr 0 b.size) := fun i lt => by
    rw [MappedMemory.frame_memset]
    exact mapped i lt
  have both := shaped.bytes_guard still 0 pos
  rw [size, if_neg (by omega), shaped.bytes_usable mapped, if_neg (by omega)] at both
  unfold wipe
  rw [guard, size]
  exact both

end

end DMAAlloc

/-! ## The invariant -/

/-- The pool's pages are mapped one after another, and its addresses end below the last. -/
structure DMAAlloc.PoolReady (alloc : DMAAlloc) : Prop where
  positive : 0 < alloc.poolPages
  notNull : 0 < alloc.poolVirt
  physAligned : alloc.poolPhys % pageSize = 0
  virtAligned : alloc.poolVirt % pageSize = 0
  physEnds : alloc.poolPhys + alloc.poolPages * pageSize ≤ 2 ^ 64
  virtEnds : alloc.poolVirt + alloc.poolPages * pageSize < 2 ^ 64
  mapped : alloc.memory.Mapped alloc.poolPhys alloc.poolVirt alloc.poolPages

/-- The pages of a buffer are those of its index in the pool, or lie outside the pool. -/
inductive DMABuffer.Located (alloc : DMAAlloc) (b : DMABuffer) : Prop where
  | inPool : b.firstIndex + b.totalPages ≤ alloc.poolPages → b.physAddr = alloc.poolPhys + b.firstIndex * pageSize →
      b.virtAddr = alloc.poolVirt + b.firstIndex * pageSize → Located alloc b
  | outside : b.firstIndex = noIndex → RangesApart b.physAddr b.bytes alloc.poolPhys (alloc.poolPages * pageSize) →
      RangesApart b.virtAddr b.bytes alloc.poolVirt (alloc.poolPages * pageSize) → Located alloc b

structure DMABuffer.Placed (alloc : DMAAlloc) (b : DMABuffer) : Prop where
  shaped : b.Shaped
  mapped : b.MappedIn alloc.memory
  guarded : b.Guarded alloc.memory
  located : b.Located alloc

def DMABuffer.InPool (b : DMABuffer) : Prop := b.firstIndex ≠ noIndex

instance : DecidablePred DMABuffer.InPool := fun b => inferInstanceAs (Decidable (b.firstIndex ≠ noIndex))

/-- The buffer has the page of the pool. -/
def DMABuffer.Holds (b : DMABuffer) (page : Nat) : Prop :=
  b.InPool ∧ b.firstIndex ≤ page ∧ page < b.firstIndex + b.totalPages

structure DMAAlloc.Kept (alloc : DMAAlloc) (live : List DMABuffer) : Prop where
  pool : alloc.PoolReady
  placed : ∀ b ∈ live, b.Placed alloc
  apart : live.Pairwise DMABuffer.Apart
  bits : ∀ page < alloc.poolPages, bitmapTest alloc.bitmap page = true ↔ ∃ b ∈ live, b.Holds page

structure DMAAlloc.SamePool (alloc after : DMAAlloc) : Prop where
  phys : after.poolPhys = alloc.poolPhys
  virt : after.poolVirt = alloc.poolVirt
  pages : after.poolPages = alloc.poolPages

/-- The range belongs neither to the pool nor to a buffer. -/
structure DMAAlloc.FreshRange (alloc : DMAAlloc) (live : List DMABuffer) (phys virt count : Nat) : Prop where
  notNull : 0 < virt
  physAligned : phys % pageSize = 0
  virtAligned : virt % pageSize = 0
  physEnds : phys + count * pageSize ≤ 2 ^ 64
  virtEnds : virt + count * pageSize ≤ 2 ^ 64
  physPool : RangesApart phys (count * pageSize) alloc.poolPhys (alloc.poolPages * pageSize)
  virtPool : RangesApart virt (count * pageSize) alloc.poolVirt (alloc.poolPages * pageSize)
  physLive : ∀ b ∈ live, RangesApart phys (count * pageSize) b.physAddr b.bytes
  virtLive : ∀ b ∈ live, RangesApart virt (count * pageSize) b.virtAddr b.bytes

instance (alloc : DMAAlloc) (live : List DMABuffer) (phys virt count : Nat) : Decidable (alloc.FreshRange live phys virt count) :=
  decidable_of_iff (0 < virt ∧ phys % pageSize = 0 ∧ virt % pageSize = 0 ∧ phys + count * pageSize ≤ 2 ^ 64 ∧
      virt + count * pageSize ≤ 2 ^ 64 ∧ RangesApart phys (count * pageSize) alloc.poolPhys (alloc.poolPages * pageSize) ∧
      RangesApart virt (count * pageSize) alloc.poolVirt (alloc.poolPages * pageSize) ∧
      (∀ b ∈ live, RangesApart phys (count * pageSize) b.physAddr b.bytes) ∧
      ∀ b ∈ live, RangesApart virt (count * pageSize) b.virtAddr b.bytes)
    ⟨fun ⟨a, b, c, d, e, f, g, h, i⟩ => ⟨a, b, c, d, e, f, g, h, i⟩,
      fun ⟨a, b, c, d, e, f, g, h, i⟩ => ⟨a, b, c, d, e, f, g, h, i⟩⟩

namespace DMAAlloc

section

variable {alloc after : DMAAlloc} {live : List DMABuffer} {b c : DMABuffer} {phys virt count : Nat}

theorem Placed.keep (placed : b.Placed alloc) (same : alloc.SamePool after)
    (frames : ∀ i < b.totalPages, after.memory.frame (b.virtAddr / pageSize + i) = alloc.memory.frame (b.virtAddr / pageSize + i))
    (guards : ∀ pos, b.physAddr + b.size ≤ pos → pos < b.physAddr + b.bytes →
      after.memory.bytes pos = alloc.memory.bytes pos) : b.Placed after where
  shaped := placed.shaped
  mapped i small := (frames i small).trans (placed.mapped i small)
  guarded pos low high := (guards pos low high).trans (placed.guarded pos low high)
  located := by
    cases placed.located with
    | inPool fits physAddr virtAddr =>
      exact .inPool (same.pages ▸ fits) (same.phys ▸ physAddr) (same.virt ▸ virtAddr)
    | outside noIndex physApart virtApart =>
      refine .outside noIndex ?_ ?_
      · rw [same.phys, same.pages]
        exact physApart
      · rw [same.virt, same.pages]
        exact virtApart

theorem PoolReady.keep (ready : alloc.PoolReady) (eq : alloc.SamePool after)
    (frames : ∀ i < alloc.poolPages, after.memory.frame (alloc.poolVirt / pageSize + i) =
      alloc.memory.frame (alloc.poolVirt / pageSize + i)) : after.PoolReady := by
  obtain ⟨poolPhys, poolVirt, poolPages⟩ := eq
  constructor
  · exact poolPages ▸ ready.positive
  · exact poolVirt ▸ ready.notNull
  · exact poolPhys ▸ ready.physAligned
  · exact poolVirt ▸ ready.virtAligned
  · rw [poolPhys, poolPages]
    exact ready.physEnds
  · rw [poolVirt, poolPages]
    exact ready.virtEnds
  · rw [poolPhys, poolVirt, poolPages]
    exact fun i lt => (frames i lt).trans (ready.mapped i lt)

theorem Kept.transfer (kept : alloc.Kept live) (same : alloc.SamePool after)
    (poolFrames : ∀ i < alloc.poolPages, after.memory.frame (alloc.poolVirt / pageSize + i) =
      alloc.memory.frame (alloc.poolVirt / pageSize + i))
    (frames : ∀ b ∈ live, ∀ i < b.totalPages,
      after.memory.frame (b.virtAddr / pageSize + i) = alloc.memory.frame (b.virtAddr / pageSize + i))
    (guards : ∀ b ∈ live, ∀ pos, b.physAddr + b.size ≤ pos → pos < b.physAddr + b.bytes →
      after.memory.bytes pos = alloc.memory.bytes pos)
    (bits : ∀ page < alloc.poolPages, bitmapTest after.bitmap page = bitmapTest alloc.bitmap page) : after.Kept live where
  pool := kept.pool.keep same poolFrames
  placed b mem := Placed.keep (kept.placed b mem) same (frames b mem) (guards b mem)
  apart := kept.apart
  bits page small := by
    rw [same.pages] at small
    rw [bits page small]
    exact kept.bits page small

theorem Kept.mapped (kept : alloc.Kept live) (fresh : alloc.FreshRange live phys virt count) {done : Nat}
    (part : done ≤ count) : (alloc.mapped phys virt done).Kept live := by
  have virtEnds := fresh.virtEnds
  have physEnds := fresh.physEnds
  have virtAligned := fresh.virtAligned
  have elsewhere : ∀ start pages, RangesApart virt (count * pageSize) start (pages * pageSize) → start % pageSize = 0 →
      ∀ i < pages, (alloc.mapped phys virt done).memory.frame (start / pageSize + i) =
        alloc.memory.frame (start / pageSize + i) := by
    intro start pages ne hal i lt
    have partEnds : virt + done * pageSize ≤ 2 ^ 64 ∧ phys + done * pageSize ≤ 2 ^ 64 ∧
        ¬ (virt / pageSize ≤ start / pageSize + i ∧ start / pageSize + i < virt / pageSize + done) := by
      unfold RangesApart at ne
      simp only [pageSize] at virtEnds physEnds virtAligned ne hal ⊢
      omega
    obtain ⟨virtPart, physPart, out⟩ := partEnds
    exact (MappedMemory.frame_mapPages virtPart physPart virtAligned fresh.physAligned _).trans (if_neg out)
  refine kept.transfer ⟨rfl, rfl, rfl⟩ (elsewhere _ _ fresh.virtPool kept.pool.virtAligned) (fun b mem => ?_)
    (fun b mem pos _ _ => ?_) fun _ _ => rfl
  · exact elsewhere _ _ (fresh.virtLive b mem) (kept.placed b mem).shaped.virtAligned
  · exact congrFun (MappedMemory.bytes_mapPages ..) pos

theorem Kept.serve (kept : alloc.Kept live) {bitmap : Nat → BitVec 8} (shaped : b.Shaped) (mapped : b.MappedIn alloc.memory)
    (located : b.Located alloc) (apart : ∀ c ∈ live, b.Apart c)
    (bits : ∀ page < alloc.poolPages, bitmapTest bitmap page = true ↔ b.Holds page ∨ bitmapTest alloc.bitmap page = true) :
    (DMAAlloc.prepare { alloc with bitmap := bitmap } b).Kept (b :: live) := by
  have marked : b.MappedIn { alloc with bitmap := bitmap }.memory := mapped
  have bytes := bytes_prepare shaped marked
  have frames : ∀ page, (DMAAlloc.prepare { alloc with bitmap := bitmap } b).memory.frame page = alloc.memory.frame page :=
    congrFun (frame_prepare { alloc with bitmap := bitmap } b)
  have own : b.Placed (DMAAlloc.prepare { alloc with bitmap := bitmap } b) := by
    refine ⟨shaped, fun i small => (frames _).trans (mapped i small), fun pos low high => ?_, ?_⟩
    · rw [bytes, if_pos ⟨low, high⟩]
    · cases located with
      | inPool fits physAddr virtAddr => exact .inPool fits physAddr virtAddr
      | outside noIndex physApart virtApart => exact .outside noIndex physApart virtApart
  refine ⟨kept.pool.keep ⟨rfl, rfl, rfl⟩ fun i _ => frames _, fun c mem => ?_, ?_, fun page small => ?_⟩
  · rcases mem_cons.mp mem with rfl | old
    · exact own
    · refine Placed.keep (kept.placed c old) ⟨rfl, rfl, rfl⟩ (fun i _ => frames _) fun pos low high => ?_
      have separate := (apart c old).1
      have length := shaped.bytes_eq
      have positive := shaped.sizes.1
      unfold RangesApart at separate
      rw [bytes, if_neg (by omega), if_neg (by omega)]
  · exact pairwise_cons.mpr ⟨apart, kept.apart⟩
  · refine (bits page small).trans ?_
    rw [kept.bits page small]
    simp

/-! ## Allocation -/

/-- A request has left the buffers as they are and served one more at most, which is clear. -/
structure Served (live : List DMABuffer) (count : Nat) (result : Option DMABuffer × DMAAlloc) : Prop where
  kept : result.2.Kept (result.1.toList ++ live)
  usable : ∀ b ∈ result.1, b.size = count * pageSize ∧ ∀ off < b.size, result.2.memory.readByte (b.virtAddr + off) = 0

/-- What the allocators answer to an attempt for `count` pages leads to memory that is free. -/
def Fresh (alloc : DMAAlloc) (live : List DMABuffer) (count : Nat) : Fallback → Prop
  | .noFrames | .noRange => True
  | .mapFails phys virt done => alloc.FreshRange live phys virt count ∧ done ≤ count
  | .noHeap phys virt | .served phys virt => alloc.FreshRange live phys virt count

instance (alloc : DMAAlloc) (live : List DMABuffer) (count : Nat) : DecidablePred (alloc.Fresh live count)
  | .noFrames | .noRange => .isTrue trivial
  | .mapFails phys virt _ => inferInstanceAs (Decidable (alloc.FreshRange live phys virt count ∧ _))
  | .noHeap phys virt | .served phys virt => inferInstanceAs (Decidable (alloc.FreshRange live phys virt count))

theorem guardFor_eq {option : Nat} (bound : count < 2 ^ 64) (lt : option < 2 ^ 64) :
    add64 count (guardFor count option) = count + guardFor count option := by
  refine add64_eq ?_
  unfold guardFor
  rw [sub64_eq (by omega) (by decide)]
  split <;> omega

theorem prepare_usable (shaped : b.Shaped) (mapped : b.MappedIn alloc.memory) :
    ∀ off < b.size, (alloc.prepare b).memory.readByte (b.virtAddr + off) = 0 := by
  intro off lt
  have length := shaped.bytes_eq
  have still : b.MappedIn (alloc.prepare b).memory := fun i lt => by
    rw [frame_prepare]
    exact mapped i lt
  have within : off < b.bytes := by omega
  unfold MappedMemory.readByte
  rw [(shaped.translate still within).2, bytes_prepare shaped mapped, if_neg (by omega), if_pos (by omega)]

/-- The buffer of a run of pages in the pool; none of its addresses wraps. -/
def poolSlot (alloc : DMAAlloc) (count guardPages start : Nat) : DMABuffer where
  firstIndex := start
  pages := count
  guardPages := guardPages
  totalPages := count + guardPages
  size := count * pageSize
  requestedBytes := count * pageSize
  physAddr := alloc.poolPhys + start * pageSize
  virtAddr := alloc.poolVirt + start * pageSize

section

variable {guardPages start : Nat}

theorem PoolReady.poolBuffer_eq (ready : alloc.PoolReady) (pos : 0 < count) (total : add64 count guardPages = count + guardPages)
    (fits : start + (count + guardPages) ≤ alloc.poolPages) :
    alloc.poolBuffer count guardPages start = alloc.poolSlot count guardPages start := by
  have physEnds := ready.physEnds
  have virtEnds := ready.virtEnds
  have bounds : count * pageSize < 2 ^ 64 ∧ start * pageSize < 2 ^ 64 ∧ alloc.poolPhys + start * pageSize < 2 ^ 64 ∧
      alloc.poolVirt + start * pageSize < 2 ^ 64 := by
    simp only [pageSize] at physEnds virtEnds ⊢
    omega
  obtain ⟨size, off, phys, virt⟩ := bounds
  unfold DMAAlloc.poolBuffer poolSlot
  rw [total, mul64_eq size, mul64_eq off, add64_eq phys, add64_eq virt]

theorem PoolReady.shaped_poolSlot (ready : alloc.PoolReady) (pos : 0 < count)
    (fits : start + (count + guardPages) ≤ alloc.poolPages) : (alloc.poolSlot count guardPages start).Shaped := by
  obtain ⟨_, notNull, physAligned, virtAligned, physEnds, virtEnds, _⟩ := ready
  constructor
  · exact pos
  · rfl
  · rfl
  · exact Nat.le_refl _
  all_goals
    simp only [DMABuffer.bytes, poolSlot, pageSize] at physEnds virtEnds physAligned virtAligned ⊢
    omega

theorem PoolReady.mapped_poolSlot (ready : alloc.PoolReady) (fits : start + (count + guardPages) ≤ alloc.poolPages) :
    (alloc.poolSlot count guardPages start).MappedIn alloc.memory := by
  intro i lt
  have h := ready.mapped (start + i) (by simp only [poolSlot] at lt; omega)
  have pages : (alloc.poolVirt + start * pageSize) / pageSize + i = alloc.poolVirt / pageSize + (start + i) ∧
      (alloc.poolPhys + start * pageSize) / pageSize + i = alloc.poolPhys / pageSize + (start + i) := by
    simp only [pageSize]
    omega
  unfold poolSlot
  rw [pages.1, pages.2]
  exact h

theorem PoolReady.inPool (ready : alloc.PoolReady) {index : Nat} (hin : index < alloc.poolPages) : index ≠ noIndex := by
  have virtEnds := ready.virtEnds
  unfold noIndex
  simp only [pageSize] at virtEnds
  omega

theorem PoolReady.holds_poolSlot (ready : alloc.PoolReady) (pos : 0 < count)
    (fits : start + (count + guardPages) ≤ alloc.poolPages) (page : Nat) :
    (alloc.poolSlot count guardPages start).Holds page ↔ start ≤ page ∧ page < start + (count + guardPages) :=
  ⟨fun both => both.2, fun both =>
    ⟨ready.inPool (Nat.lt_of_lt_of_le (Nat.lt_add_of_pos_right (Nat.add_pos_left pos _)) fits), both⟩⟩

/-- No buffer has a page of a free run, so none meets the run. -/
theorem Kept.apart_poolSlot (kept : alloc.Kept live) (positive : 0 < count)
    (fits : start + (count + guardPages) ≤ alloc.poolPages)
    (free : ∀ page, start ≤ page → page < start + (count + guardPages) → bitmapTest alloc.bitmap page = false) :
    ∀ c ∈ live, (alloc.poolSlot count guardPages start).Apart c := by
  intro c mem
  have placed := kept.placed c mem
  unfold DMABuffer.Apart RangesApart DMABuffer.bytes poolSlot
  cases placed.located with
  | outside _ physApart virtApart =>
    unfold RangesApart DMABuffer.bytes at physApart virtApart
    simp only [pageSize] at physApart virtApart ⊢
    omega
  | inPool cFits cPhys cVirt =>
    have cPositive := placed.shaped.positive
    have cTotal := placed.shaped.total
    have cInPool : c.InPool := kept.pool.inPool (by omega)
    have others : ∀ page, start ≤ page → page < start + (count + guardPages) →
        ¬ (c.firstIndex ≤ page ∧ page < c.firstIndex + c.totalPages) := by
      intro page low high inside
      have bit := (kept.bits page (by omega)).mpr ⟨c, mem, cInPool, inside⟩
      cases (free page low high).symm.trans bit
    -- the first page of one of the two would belong to the other
    have first := others start (Nat.le_refl _) (by omega)
    have second := others c.firstIndex
    rw [cPhys, cVirt]
    simp only [pageSize]
    omega

theorem Kept.poolBuffer (kept : alloc.Kept live) (pos : 0 < count)
    (total : add64 count guardPages = count + guardPages)
    (hf : findFrames alloc.bitmap alloc.poolPages (count + guardPages) = some start) :
    Served live count (some (alloc.poolBuffer count guardPages start),
      DMAAlloc.prepare { alloc with bitmap := bitmapSetRange alloc.bitmap start (count + guardPages) }
        (alloc.poolBuffer count guardPages start)) := by
  obtain ⟨isRun, fits, _⟩ := (scan_eq_some_iff (by omega)).mp hf
  have free : ∀ page, start ≤ page → page < start + (count + guardPages) → bitmapTest alloc.bitmap page = false := by
    intro page low high
    have bit := isRun (page - start) (by omega)
    rw [show start + (page - start) = page by omega] at bit
    simpa using bit
  rw [kept.pool.poolBuffer_eq pos total fits]
  have shaped := @PoolReady.shaped_poolSlot _ _ guardPages _ kept.pool pos fits
  have mapped := @PoolReady.mapped_poolSlot _ count guardPages _ kept.pool fits
  refine ⟨kept.serve shaped mapped (.inPool fits rfl rfl) (kept.apart_poolSlot pos fits free) fun page _ => ?_, ?_⟩
  · rw [bitmapTest_setRange, kept.pool.holds_poolSlot pos fits]
    simp
  · intro b isBuffer
    cases isBuffer
    exact ⟨rfl, @prepare_usable { alloc with bitmap := bitmapSetRange alloc.bitmap start (count + guardPages) } _ shaped mapped⟩

end

theorem Kept.allocateInPool (kept : alloc.Kept live) {heap : Bool} {options : List Nat}
    {res : Option DMABuffer × DMAAlloc} (pos : 0 < count) (bound : count < 2 ^ 64)
    (lt : ∀ option ∈ options, option < 2 ^ 64) (done : alloc.allocateInPool count heap options = some res) :
    Served live count res := by
  induction options with
  | nil => exact nomatch done
  | cons option options ih =>
    have later := ih fun option mem => lt option (mem_cons_of_mem _ mem)
    have total := guardFor_eq bound (lt option mem_cons_self)
    simp only [DMAAlloc.allocateInPool, total] at done
    split at done
    · exact later done
    split at done
    case h_1 => exact later done
    case h_2 start hf =>
      split at done
      · exact Option.some.inj done ▸ kept.poolBuffer pos total hf
      · obtain ⟨isRun, _, _⟩ := (scan_eq_some_iff (by omega)).mp hf
        cases done
        refine ⟨kept.transfer ⟨rfl, rfl, rfl⟩ (fun _ _ => rfl) (fun _ _ _ _ => rfl) (fun _ _ _ _ _ => rfl) fun page _ => ?_,
          fun b isBuffer => nomatch isBuffer⟩
        -- the bits that are cleared again were clear
        rw [bitmapTest_clearRange, bitmapTest_setRange]
        by_cases hin : start ≤ page ∧ page < start + (count + guardFor count option)
        · have bit := isRun (page - start) (by omega)
          simpa [hin] using bit
        · simp [hin]

theorem Kept.ownBuffer (kept : alloc.Kept live) {guardPages : Nat} (pos : 0 < count)
    (total : add64 count guardPages = count + guardPages) (fresh : alloc.FreshRange live phys virt (count + guardPages)) :
    Served live count (some (DMAAlloc.ownBuffer count guardPages phys virt),
      (alloc.mapped phys virt (count + guardPages)).prepare (DMAAlloc.ownBuffer count guardPages phys virt)) := by
  obtain ⟨notNull, physAligned, virtAligned, physEnds, virtEnds, physPool, virtPool, physLive, virtLive⟩ := fresh
  have size : mul64 count pageSize = count * pageSize := by
    simp only [pageSize] at virtEnds ⊢
    exact mul64_eq (by omega)
  have shaped : (DMAAlloc.ownBuffer count guardPages phys virt).Shaped := by
    constructor
    · exact pos
    · exact total
    · exact size
    · exact Nat.le_refl _
    · exact physAligned
    · exact virtAligned
    · exact notNull
    · simpa only [DMABuffer.bytes, DMAAlloc.ownBuffer, total] using physEnds
    · simpa only [DMABuffer.bytes, DMAAlloc.ownBuffer, total] using virtEnds
  have bytes : (DMAAlloc.ownBuffer count guardPages phys virt).bytes = (count + guardPages) * pageSize := by
    simp only [DMABuffer.bytes, DMAAlloc.ownBuffer, total]
  have mapped : (DMAAlloc.ownBuffer count guardPages phys virt).MappedIn
      (alloc.mapped phys virt (count + guardPages)).memory := by
    intro i lt
    simp only [DMAAlloc.ownBuffer, total] at lt ⊢
    refine (MappedMemory.frame_mapPages virtEnds physEnds virtAligned physAligned _).trans ?_
    rw [if_pos (by omega), Nat.add_sub_cancel_left]
  have remapped := kept.mapped ⟨notNull, physAligned, virtAligned, physEnds, virtEnds, physPool, virtPool, physLive, virtLive⟩
    (Nat.le_refl (count + guardPages))
  refine ⟨remapped.serve shaped mapped (.outside rfl ?_ ?_) (fun c mem => ?_) fun page lt => ?_, ?_⟩
  · rw [bytes]
    exact physPool
  · rw [bytes]
    exact virtPool
  · unfold DMABuffer.Apart
    rw [bytes]
    exact ⟨physLive c mem, virtLive c mem⟩
  · have notHolds : ¬ (DMAAlloc.ownBuffer count guardPages phys virt).Holds page := fun holds => holds.1 rfl
    exact (or_iff_right notHolds).symm
  · intro b isBuffer
    cases isBuffer
    exact ⟨size, prepare_usable shaped mapped⟩

theorem FreshRange.keep (fresh : alloc.FreshRange live phys virt count) (eq : alloc.SamePool after) :
    after.FreshRange live phys virt count := by
  refine ⟨fresh.notNull, fresh.physAligned, fresh.virtAligned, fresh.physEnds, fresh.virtEnds, ?_, ?_, fresh.physLive,
    fresh.virtLive⟩
  · rw [eq.phys, eq.pages]
    exact fresh.physPool
  · rw [eq.virt, eq.pages]
    exact fresh.virtPool

theorem Fresh.keep {answer : Fallback} (fresh : alloc.Fresh live count answer) (eq : alloc.SamePool after) :
    after.Fresh live count answer := by
  cases answer with
  | noFrames => trivial
  | noRange => trivial
  | mapFails => exact ⟨FreshRange.keep fresh.1 eq, fresh.2⟩
  | noHeap => exact FreshRange.keep fresh eq
  | served => exact FreshRange.keep fresh eq

theorem Kept.allocateOutside (kept : alloc.Kept live) {attempts : List (Nat × Fallback)} (pos : 0 < count)
    (bound : count < 2 ^ 64) (lt : ∀ attempt ∈ attempts, attempt.1 < 2 ^ 64)
    (fresh : ∀ attempt ∈ attempts, alloc.Fresh live (count + guardFor count attempt.1) attempt.2) :
    Served live count (alloc.allocateOutside count attempts) := by
  induction attempts generalizing alloc with
  | nil =>
    refine ⟨kept.transfer ⟨rfl, rfl, rfl⟩ (fun _ _ => rfl) (fun _ _ _ _ => rfl) (fun _ _ _ _ _ => rfl) fun _ _ => rfl, ?_⟩
    exact fun b isBuffer => nomatch isBuffer
  | cons attempt attempts ih =>
    obtain ⟨option, answer⟩ := attempt
    have others : ∀ attempt ∈ attempts, attempt.1 < 2 ^ 64 := fun attempt mem =>
      lt attempt (mem_cons_of_mem _ mem)
    have later : ∀ attempt ∈ attempts, alloc.Fresh live (count + guardFor count attempt.1) attempt.2 := fun attempt mem =>
      fresh attempt (mem_cons_of_mem _ mem)
    have own := fresh (option, answer) mem_cons_self
    have total := guardFor_eq bound (lt (option, answer) mem_cons_self)
    simp only [DMAAlloc.allocateOutside, total]
    rw [if_neg (by omega)]
    cases answer with
    | noFrames => exact ih kept others later
    | noRange => exact ih kept others later
    | mapFails phys virt done =>
      exact ih (kept.mapped own.1 own.2) others fun attempt mem => Fresh.keep (later attempt mem) ⟨rfl, rfl, rfl⟩
    | noHeap phys virt =>
      exact ih (kept.mapped own (Nat.le_refl _)) others fun attempt mem => Fresh.keep (later attempt mem) ⟨rfl, rfl, rfl⟩
    | served phys virt =>
      obtain ⟨served, usable⟩ := kept.ownBuffer pos total own
      refine ⟨served.transfer ⟨rfl, rfl, rfl⟩ (fun _ _ => rfl) (fun _ _ _ _ => rfl) (fun _ _ _ _ _ => rfl) fun _ _ => rfl, ?_⟩
      exact usable

theorem Kept.allocateDMAPages (kept : alloc.Kept live) {heap : Bool} {first snd : Fallback} (bound : count < 2 ^ 64)
    (withGuard : alloc.Fresh live (count + guardFor count dmaGuardPagesDefault) first)
    (without : alloc.Fresh live (count + guardFor count 0) snd) :
    Served live count (alloc.allocateDMAPages count heap first snd) := by
  unfold DMAAlloc.allocateDMAPages
  split
  · exact ⟨kept, fun b isBuffer => nomatch isBuffer⟩
  case isFalse pos =>
    have called : DMAAlloc.Kept { alloc with stats.allocCalls := add64 alloc.stats.allocCalls 1 } live :=
      kept.transfer ⟨rfl, rfl, rfl⟩ (fun _ _ => rfl) (fun _ _ _ _ => rfl) (fun _ _ _ _ _ => rfl) fun _ _ => rfl
    have options : ∀ option ∈ [dmaGuardPagesDefault, 0], option < 2 ^ 64 := by decide
    dsimp only
    split
    case h_1 res hf => exact called.allocateInPool (Nat.pos_of_ne_zero pos) bound options hf
    case h_2 =>
      refine called.allocateOutside (Nat.pos_of_ne_zero pos) bound (fun attempt mem => ?_) fun attempt mem => ?_
      · simp only [mem_cons, not_mem_nil, or_false] at mem
        rcases mem with rfl | rfl
        · exact options _ mem_cons_self
        · exact options _ (by simp)
      · simp only [mem_cons, not_mem_nil, or_false] at mem
        rcases mem with rfl | rfl
        · exact Fresh.keep withGuard ⟨rfl, rfl, rfl⟩
        · exact Fresh.keep without ⟨rfl, rfl, rfl⟩

theorem Served.request (served : Served live count (some b, after)) {bytes : Nat} (fits : bytes ≤ b.size) :
    Served live count (some { b with requestedBytes := bytes }, after) := by
  obtain ⟨⟨pool, placed, apart, bits⟩, usable⟩ := served
  obtain ⟨shaped, mapped, guarded, located⟩ := placed b mem_cons_self
  obtain ⟨first, others⟩ := pairwise_cons.mp apart
  refine ⟨⟨pool, fun c mem => ?_, pairwise_cons.mpr ⟨first, others⟩, fun page small => ?_⟩, fun c isBuffer => ?_⟩
  · rcases mem_cons.mp mem with rfl | old
    · refine ⟨⟨shaped.positive, shaped.total, shaped.size, fits, shaped.physAligned, shaped.virtAligned, shaped.notNull,
        shaped.physEnds, shaped.virtEnds⟩, mapped, guarded, ?_⟩
      cases located with
      | inPool inside physAddr virtAddr => exact .inPool inside physAddr virtAddr
      | outside noIndex physApart virtApart => exact .outside noIndex physApart virtApart
    · exact placed c (mem_cons_of_mem b old)
  · refine (bits page small).trans ?_
    simp only [Option.toList, cons_append, nil_append, mem_cons, exists_eq_or_imp]
    exact .rfl
  · cases isBuffer
    exact usable b rfl

theorem rounded_pages {bytes : Nat} (bound : bytes < 2 ^ 64) (isCount : count = sub64 (add64 bytes pageSize) 1 / pageSize) :
    count < 2 ^ 64 ∧ (bytes ≤ count * pageSize ∨ count = 0) := by
  simp only [sub64, add64, pageSize] at isCount ⊢
  omega

theorem Kept.allocateDMABytes (kept : alloc.Kept live) {bytes : Nat} {heap : Bool} {first snd : Fallback}
    (bound : bytes < 2 ^ 64) (isCount : count = sub64 (add64 bytes pageSize) 1 / pageSize)
    (withGuard : alloc.Fresh live (count + guardFor count dmaGuardPagesDefault) first)
    (without : alloc.Fresh live (count + guardFor count 0) snd) :
    Served live count (alloc.allocateDMABytes bytes heap first snd) ∧
      ∀ b ∈ (alloc.allocateDMABytes bytes heap first snd).1, bytes ≤ b.size ∧ b.requestedBytes = bytes := by
  have rounded := rounded_pages bound isCount
  unfold DMAAlloc.allocateDMABytes
  split
  · exact ⟨⟨kept, fun b isBuffer => nomatch isBuffer⟩, fun b isBuffer => nomatch isBuffer⟩
  have pages : (count = 0 → (alloc.allocateDMAPages count heap first snd).1 = none) ∧
      Served live count (alloc.allocateDMAPages count heap first snd) :=
    ⟨fun zero => by rw [DMAAlloc.allocateDMAPages, if_pos zero], kept.allocateDMAPages rounded.1 withGuard without⟩
  obtain ⟨nothing, served⟩ := pages
  rw [← isCount]
  dsimp only
  generalize alloc.allocateDMAPages count heap first snd = res at served nothing ⊢
  obtain ⟨buffer, after⟩ := res
  cases buffer with
  | none => exact ⟨⟨served.kept, fun b isBuffer => nomatch isBuffer⟩, fun b isBuffer => nomatch isBuffer⟩
  | some b =>
    have fits : bytes ≤ b.size := by
      rw [(served.usable b rfl).1]
      exact rounded.2.resolve_right fun zero => nomatch nothing zero
    refine ⟨served.request fits, fun c isBuffer => ?_⟩
    cases isBuffer
    exact ⟨fits, rfl⟩

/-! ## Freeing and writing -/

theorem holds_apart {page : Nat} (placed : b.Placed alloc) (other : c.Placed alloc) (apart : b.Apart c)
    (holds : b.Holds page) : ¬ c.Holds page := by
  intro also
  cases placed.located with
  | outside noIndex => exact holds.1 noIndex
  | inPool _ physAddr _ =>
    cases other.located with
    | outside noIndex => exact also.1 noIndex
    | inPool _ otherPhys _ =>
      have separate := apart.1
      have inside := holds.2
      have within := also.2
      unfold RangesApart DMABuffer.bytes at separate
      rw [physAddr, otherPhys] at separate
      simp only [pageSize] at separate
      omega

theorem Kept.freeDMABuffer (kept : alloc.Kept live) (mem : b ∈ live) : (alloc.freeDMABuffer b).Kept (live.erase b) := by
  have placed := kept.placed b mem
  obtain ⟨_, _, _, _, totalPages⟩ := placed.shaped.sizes
  have positive := placed.shaped.positive
  have total := placed.shaped.total
  have split : (b :: live.erase b).Pairwise DMABuffer.Apart :=
    ((perm_cons_erase mem).pairwise_iff fun apart => apart.symm).mp kept.apart
  obtain ⟨apart, others⟩ := pairwise_cons.mp split
  have isLive : ∀ c ∈ live.erase b, c ∈ live := fun c => mem_of_mem_erase
  have either : ∀ page, (∃ c ∈ live, c.Holds page) ↔ b.Holds page ∨ ∃ c ∈ live.erase b, c.Holds page := by
    intro page
    simp only [(perm_cons_erase mem).mem_iff, mem_cons, exists_eq_or_imp]
  have frames := congrFun (frame_wipe alloc b)
  -- what is left, whatever becomes of the bits
  have left : ∀ after : DMAAlloc, alloc.SamePool after → after.memory = (alloc.wipe b).memory →
      (∀ page < alloc.poolPages, bitmapTest after.bitmap page = true ↔ ∃ c ∈ live.erase b, c.Holds page) →
      after.Kept (live.erase b) := by
    intro after same memory bits
    refine ⟨kept.pool.keep same fun i _ => ?_, fun c rest => ?_, others, fun page small => bits page (same.pages ▸ small)⟩
    · rw [memory, frames]
    · refine Placed.keep (kept.placed c (isLive c rest)) same (fun i _ => ?_) fun pos low high => ?_
      · rw [memory, frames]
      · have separate := (apart c rest).1
        unfold RangesApart at separate
        rw [memory, bytes_wipe placed.shaped placed.mapped (by omega)]
  unfold DMAAlloc.freeDMABuffer
  rw [totalPages]
  cases placed.located with
  | outside isOutside physApart virtApart =>
    rw [if_pos isOutside, if_neg (by omega)]
    refine left _ ⟨rfl, rfl, rfl⟩ rfl fun page small => (kept.bits page small).trans ?_
    rw [either]
    exact or_iff_right fun holds => holds.1 isOutside
  | inPool fits physAddr virtAddr =>
    have index : b.firstIndex < alloc.poolPages := by omega
    have inPool := kept.pool.inPool index
    have virtEnds := kept.pool.virtEnds
    have checks : ¬ (b.virtAddr < alloc.poolVirt) ∧
        ¬ (add64 alloc.poolVirt (mul64 alloc.poolPages pageSize) ≤ b.virtAddr) ∧
        ¬ ((b.virtAddr - alloc.poolVirt) % pageSize ≠ 0) ∧ (b.virtAddr - alloc.poolVirt) / pageSize = b.firstIndex ∧
        ¬ (add64 b.firstIndex b.totalPages > alloc.poolPages) := by
      simp only [pageSize] at virtEnds virtAddr ⊢
      have pool : mul64 alloc.poolPages 4096 = alloc.poolPages * 4096 := mul64_eq (by omega)
      have sum : add64 b.firstIndex b.totalPages = b.firstIndex + b.totalPages := add64_eq (by omega)
      rw [pool, sum, add64_eq virtEnds]
      omega
    obtain ⟨above, below, aligned, index, inside⟩ := checks
    rw [if_neg inPool, if_neg (by omega), if_neg above, if_neg below, if_neg aligned, index, if_neg inside]
    refine left _ ⟨rfl, rfl, rfl⟩ rfl fun page small => ?_
    have holds : b.Holds page ↔ b.firstIndex ≤ page ∧ page < b.firstIndex + b.totalPages :=
      ⟨fun both => both.2, fun both => ⟨inPool, both⟩⟩
    rw [bitmapTest_clearRange, ← decide_not, Bool.and_eq_true, decide_eq_true_iff, ← holds, kept.bits page small, either]
    constructor
    · rintro ⟨notOwn, own | rest⟩
      · exact absurd own notOwn
      · exact rest
    · rintro ⟨c, rest, cHolds⟩
      exact ⟨fun own => holds_apart placed (kept.placed c (isLive c rest)) (apart c rest) own cHolds, .inr ⟨c, rest, cHolds⟩⟩

theorem Kept.written (kept : alloc.Kept live) (mem : b ∈ live) {off : Nat} (hin : off < b.size) (value : UInt8) :
    DMAAlloc.Kept { alloc with memory.bytes := Function.update alloc.memory.bytes (b.physAddr + off) value } live := by
  refine kept.transfer ⟨rfl, rfl, rfl⟩ (fun _ _ => rfl) (fun _ _ _ _ => rfl) (fun c other pos low high => ?_) fun _ _ => rfl
  refine Function.update_of_ne ?_ ..
  by_cases eq : b = c
  · subst eq
    omega
  · have separate := (kept.apart.forall mem other eq).1
    have length := (kept.placed b mem).shaped.bytes_eq
    unfold RangesApart at separate
    omega

end

end DMAAlloc

end RosKernel.Memory
