import Mathlib.Data.List.Pairwise
import RosKernel.Library.Runs
import RosKernel.Memory.FreeBlocks

/-! Integrity of the kernel heap over any run of `Alloc` and `Free`.

The run records which pointers are live and for how many bytes each was asked. Its
steps include what callers do in between: they write into the bytes they asked for.
-/

set_option autoImplicit false

namespace RosKernel.Memory

open Library List
open Function (update update_of_ne)

structure Allocation where
  ptr : Nat
  size : Nat

structure HeapState where
  heap : Heap
  live : List Allocation

inductive HeapOp where
  | alloc (size : UInt64) (outcome : GrowOutcome)
  | free (ptr : UInt64)
  | write (addr : Nat) (value : UInt8)

/-- The block behind a returned pointer, as its header in memory describes it. -/
def Allocation.block (mem : Bytes) (allocation : Allocation) : Span :=
  ⟨allocation.ptr - headerSize, blockSize mem (allocation.ptr - headerSize)⟩

/-- The contract of the page allocators: a range they hand out for the heap is a
range of whole pages of the address space, and none of it is in the heap already. -/
def GrowOutcome.Fresh (outcome : GrowOutcome) (heap : Heap) (pages : Nat) : Prop :=
  outcome.base ≠ 0 → outcome.base % pageSize = 0 ∧ outcome.base + pages * pageSize ≤ 2 ^ 64 ∧
    ∀ pos, outcome.base ≤ pos → pos < outcome.base + pages * pageSize → ¬ Covered heap.regions pos

namespace HeapState

def step (state : HeapState) : HeapOp → Option HeapState
  | .alloc size outcome =>
    match state.heap.alloc size.toNat outcome with
    | none => none
    | some (ptr, heap) => some {
        heap := heap
        live := if ptr = 0 then state.live else ⟨ptr, size.toNat⟩ :: state.live }
  | .free ptr =>
    match state.heap.free ptr.toNat with
    | none => none
    | some (heap, _) => some {
        heap := heap
        live := state.live.filter fun allocation => allocation.ptr ≠ ptr.toNat }
  | .write addr value => some { state with
      heap := { state.heap with mem := update state.heap.mem addr value } }

def Called (state : HeapState) : HeapOp → Prop
  | .alloc size outcome => size.toNat + tailCanaryBytes + (heapAlign - 1) + headerSize ≤ 2 ^ 64 - 1 ∧
      outcome.Fresh state.heap (Heap.growPages (Heap.totalSize size.toNat))
  | .free ptr => ∃ allocation ∈ state.live, allocation.ptr = ptr.toNat
  | .write addr _ => ∃ allocation ∈ state.live,
      allocation.ptr ≤ addr ∧ addr < allocation.ptr + allocation.size

/-- The state after an `Init` whose page allocations all succeeded. -/
def boot (mem : Bytes) (pages vaddr : Nat) : HeapState := ⟨Heap.init mem pages vaddr, []⟩

end HeapState

/-- The virtual range that `Init` received: whole pages of the address space. -/
def InitRange (pages vaddr : Nat) : Prop :=
  vaddr ≠ 0 ∧ vaddr % pageSize = 0 ∧ vaddr + (if pages = 0 then 16 else pages) * pageSize ≤ 2 ^ 64

/-- Block addresses and sizes are multiples of the alignment, and a free block has
room for its header. -/
def BlockShape (span : Span) : Prop :=
  span.start % heapAlign = 0 ∧ span.len % heapAlign = 0 ∧ headerSize + heapAlign ≤ span.len

structure LiveBlock (heap : Heap) (allocation : Allocation) : Prop where
  named : headerSize < allocation.ptr
  aligned : (allocation.ptr - headerSize) % heapAlign = 0
  whole : (allocation.block heap.mem).len % heapAlign = 0
  room : headerSize + allocation.size + tailCanaryBytes ≤ (allocation.block heap.mem).len
  magic : blockMagic heap.mem (allocation.ptr - headerSize) = magicAlloc
  place : canaryAddr heap.mem (allocation.ptr - headerSize) = (allocation.block heap.mem).stop - tailCanaryBytes
  canary : load heap.mem (canaryAddr heap.mem (allocation.ptr - headerSize)) tailCanaryBytes = kmallocCanary
  low : heap.heapLow ≤ allocation.ptr - headerSize
  high : allocation.ptr - headerSize < heap.heapHigh

/-- The free list is `free`, and free and live blocks partition the mapped regions. -/
structure HeapState.Intact (state : HeapState) (free : List Span) : Prop where
  path : FreePath state.heap.mem state.heap.freeList free 0
  separated : Separated free
  shape : ∀ span ∈ free, BlockShape span
  live : ∀ allocation ∈ state.live, LiveBlock state.heap allocation
  distinct : state.live.Pairwise fun one other =>
    ∀ pos, (one.block state.heap.mem).Has pos → ¬ (other.block state.heap.mem).Has pos
  apart : ∀ allocation ∈ state.live, ∀ pos, (allocation.block state.heap.mem).Has pos → ¬ Covered free pos
  whole : ∀ pos, Covered state.heap.regions pos ↔
    Covered free pos ∨ ∃ allocation ∈ state.live, (allocation.block state.heap.mem).Has pos
  placed : ∀ region ∈ state.heap.regions, pageSize ≤ region.start ∧ region.stop ≤ 2 ^ 64
  bounds : 0 < state.heap.heapLow

/-! ## Consequences of the invariant -/

section

variable {state : HeapState} {free : List Span}

theorem HeapState.Intact.inside (intact : state.Intact free) {span : Span} (positive : 0 < span.len)
    (mapped : ∀ pos, span.Has pos → Covered state.heap.regions pos) :
    pageSize ≤ span.start ∧ span.stop ≤ 2 ^ 64 := by
  obtain ⟨first, firstMember, firstHas⟩ := mapped span.start ⟨Nat.le_refl _, by simp only [Span.stop]; omega⟩
  obtain ⟨last, lastMember, lastHas⟩ := mapped (span.stop - 1) (by simp only [Span.Has, Span.stop]; omega)
  have low := (intact.placed first firstMember).1
  have high := (intact.placed last lastMember).2
  simp only [Span.Has, Span.stop] at firstHas lastHas high ⊢
  omega

theorem HeapState.Intact.freeInside (intact : state.Intact free) (span : Span) (mem : span ∈ free) :
    pageSize ≤ span.start ∧ span.stop ≤ 2 ^ 64 :=
  intact.inside (intact.separated.nonempty span mem) fun pos has =>
    (intact.whole pos).mpr (.inl ⟨span, mem, has⟩)

theorem LiveBlock.positive {heap : Heap} {alloc : Allocation} (block : LiveBlock heap alloc) :
    0 < (alloc.block heap.mem).len := by
  have := block.room
  simp only [headerSize] at this
  omega

theorem HeapState.Intact.liveInside (intact : state.Intact free) (alloc : Allocation)
    (mem : alloc ∈ state.live) :
    pageSize ≤ (alloc.block state.heap.mem).start ∧ (alloc.block state.heap.mem).stop ≤ 2 ^ 64 :=
  intact.inside (intact.live alloc mem).positive fun pos has =>
    (intact.whole pos).mpr (.inr ⟨alloc, mem, has⟩)

theorem Separated.ordered {spans : List Span} (separated : Separated spans)
    (shape : ∀ span ∈ spans, BlockShape span) : Ordered spans := by
  refine ⟨fun span mem => ?_, separated.gaps.imp fun gap => Nat.le_of_lt gap⟩
  have := (shape span mem).2.2
  omega

theorem HeapState.Intact.unique (intact : state.Intact free) {one other : Allocation} (oneLive : one ∈ state.live)
    (otherLive : other ∈ state.live) {pos : Nat} (oneHas : (one.block state.heap.mem).Has pos)
    (otherHas : (other.block state.heap.mem).Has pos) : one = other := by
  by_contra differ
  have symmetric : Std.Symm fun one other : Allocation =>
      ∀ pos, (one.block state.heap.mem).Has pos → ¬ (other.block state.heap.mem).Has pos :=
    ⟨fun _ _ ne pos snd first => ne pos first snd⟩
  exact intact.distinct.forall oneLive otherLive differ pos oneHas otherHas

end

/-! ## Frames -/

section

variable {heap : Heap} {alloc : Allocation} (block : LiveBlock heap alloc)
include block

theorem LiveBlock.frame {other : Heap} (header : SameHeader heap.mem other.mem (alloc.ptr - headerSize))
    (tail : SameBytes heap.mem other.mem ((alloc.block heap.mem).stop - tailCanaryBytes) tailCanaryBytes)
    (low : other.heapLow ≤ heap.heapLow) (high : heap.heapHigh ≤ other.heapHigh) :
    LiveBlock other alloc ∧ alloc.block other.mem = alloc.block heap.mem := by
  have eq : alloc.block other.mem = alloc.block heap.mem := by
    rw [Allocation.block, Allocation.block, header.size]
  have place : canaryAddr other.mem (alloc.ptr - headerSize) =
      canaryAddr heap.mem (alloc.ptr - headerSize) := by
    rw [canaryAddr, canaryAddr, header.size]
  refine ⟨⟨block.named, block.aligned, eq ▸ block.whole, eq ▸ block.room, header.magic.trans block.magic, ?_, ?_,
    Nat.le_trans low block.low, Nat.lt_of_lt_of_le block.high high⟩, eq⟩
  · rw [place, eq, block.place]
  · rw [place, block.place, load_congr tail, ← block.place, block.canary]

theorem LiveBlock.spared {other : Bytes} (eq : ∀ pos, (alloc.block heap.mem).Has pos → other pos = heap.mem pos) :
    SameHeader heap.mem other (alloc.ptr - headerSize) ∧
      SameBytes heap.mem other ((alloc.block heap.mem).stop - tailCanaryBytes) tailCanaryBytes := by
  have room := block.room
  have start : (alloc.block heap.mem).start = alloc.ptr - headerSize := rfl
  simp only [headerSize, tailCanaryBytes] at room start
  constructor
  · intro pos low high
    refine eq pos ?_
    simp only [Span.Has, Span.stop, headerSize] at low high ⊢
    omega
  · intro pos low high
    refine eq pos ?_
    simp only [Span.Has, Span.stop, tailCanaryBytes] at low high ⊢
    omega

theorem LiveBlock.kept {other : Heap} (eq : ∀ pos, (alloc.block heap.mem).Has pos → other.mem pos = heap.mem pos)
    (low : other.heapLow ≤ heap.heapLow) (high : heap.heapHigh ≤ other.heapHigh) :
    LiveBlock other alloc ∧ alloc.block other.mem = alloc.block heap.mem := by
  obtain ⟨header, tail⟩ := block.spared eq
  exact block.frame header tail low high

end

/-- Inserting a block that overlaps no free block: its bytes become free ones, and
only bytes of free blocks change. -/
theorem insert_block (heap : Heap) {free : List Span} {block : Span}
    (path : FreePath heap.mem heap.freeList free 0) (separated : Separated free)
    (shape : ∀ span ∈ free, BlockShape span) (bounded : ∀ span ∈ free, span.stop ≤ 2 ^ 64)
    (out : ∀ pos, block.Has pos → ¬ Covered free pos) (named : 0 < block.start) (blockShape : BlockShape block)
    (size : blockSize heap.mem block.start = block.len) (stop : block.stop ≤ 2 ^ 64) :
    ∃ mem freeList free', heap.insertAndCoalesce block.start = some { heap with mem := mem, freeList := freeList } ∧
      FreePath mem freeList free' 0 ∧ Separated free' ∧ (∀ span ∈ free', BlockShape span) ∧
      (∀ pos, Covered free' pos ↔ block.Has pos ∨ Covered free pos) ∧
      ∀ pos, ¬ block.Has pos → ¬ Covered free pos → mem pos = heap.mem pos := by
  have blockRoom := blockShape.2.2
  simp only [headerSize, heapAlign] at blockRoom
  have positive : 0 < block.len := by omega
  have split : ∃ pre after, free = pre ++ after ∧ (∀ left ∈ pre, left.start < block.start) ∧
      ∀ right ∈ after, block.start ≤ right.start := by
    rw [← map_id free] at separated
    exact separated.exists_split block.start
  obtain ⟨pre, after, rfl, below, above⟩ := split
  obtain ⟨left, right⟩ := separated.placed positive out below above
  have old := Separated.ordered separated shape
  obtain ⟨first, snd, across⟩ := ordered_append.mp old
  have ord : Ordered (pre ++ block :: after) := by
    refine ordered_append.mpr ⟨first, ⟨forall_mem_cons.mpr ⟨by simp only [headerSize]; omega, snd.room⟩,
      pairwise_cons.mpr ⟨right, snd.order⟩⟩, fun low member => ?_⟩
    exact forall_mem_cons.mpr ⟨left low member, across low member⟩
  have allBounded : ∀ span ∈ pre ++ block :: after, span.stop ≤ 2 ^ 64 := by
    rw [forall_mem_append] at bounded ⊢
    exact ⟨bounded.1, forall_mem_cons.mpr ⟨stop, bounded.2⟩⟩
  rw [forall_mem_append] at shape
  obtain ⟨mem, freeList, ins, listed, only⟩ := path.insertAndCoalesce ord named size allBounded
  obtain ⟨joined, covers⟩ := separated.insertSpan positive left right
  refine ⟨mem, freeList, _, ins, listed, joined, forall_mem_insertSpan shape.1 blockShape shape.2 ?_, covers, ?_⟩
  · rintro one other ⟨oneStart, oneLen, oneRoom⟩ ⟨_, otherLen, _⟩
    refine ⟨oneStart, ?_, by simp only; omega⟩
    simp only [heapAlign] at oneLen otherLen ⊢
    omega
  · intro pos notBlock notFree
    refine only pos (forall_mem_cons.mpr ⟨?_, forall_mem_map.mpr fun span member => ?_⟩)
    · simp only [Span.Has, Span.stop, headerSize] at notBlock ⊢
      omega
    · have room := old.room span (mem_append_left _ member)
      have notSpan : ¬ span.Has pos := fun has => notFree ⟨span, mem_append_left _ member, has⟩
      simp only [Span.Has, Span.stop] at notSpan
      omega

/-! ## One step -/

section

variable {state : HeapState} {free : List Span}

theorem alignUp_eq {value : Nat} (lt : value + 7 < 2 ^ 64) : alignUp value = (value + 7) / 8 * 8 := by
  rw [alignUp, heapAlign, add64_eq lt]
  exact clearLow_eq 3 lt

theorem totalSize_spec {size : Nat} (lt : size + tailCanaryBytes + (heapAlign - 1) + headerSize ≤ 2 ^ 64 - 1) :
    headerSize + size + tailCanaryBytes ≤ Heap.totalSize size ∧ Heap.totalSize size % heapAlign = 0 := by
  simp only [tailCanaryBytes, heapAlign, headerSize] at lt
  simp only [Heap.totalSize, tailCanaryBytes, heapAlign, headerSize]
  have sum : add64 size 8 = size + 8 := add64_eq (by omega)
  rw [sum, alignUp_eq (by omega), add64_eq (by omega)]
  omega

theorem HeapState.Intact.take {pre after : List Span} {span : Span} {size total : Nat}
    (intact : state.Intact (pre ++ span :: after)) (trusted : state.heap.suspicious span.start = false)
    (room : headerSize + size + tailCanaryBytes ≤ total) (hal : total % heapAlign = 0) (fits : total ≤ span.len) :
    add64 span.start headerSize ≠ 0 ∧ ∃ free', HeapState.Intact
      ⟨state.heap.takeBlock (pre.getLast?.map Span.start) span.start total,
        ⟨add64 span.start headerSize, size⟩ :: state.live⟩ free' := by
  have member : span ∈ pre ++ span :: after := by simp
  obtain ⟨above, stop⟩ := intact.freeInside span member
  obtain ⟨startAligned, lenAligned, _⟩ := intact.shape span member
  have ord := Separated.ordered intact.separated intact.shape
  obtain ⟨ht, mem, freeList, choice, eq, takes⟩ := intact.path.takeBlock ord stop above
    (by simp only [headerSize, tailCanaryBytes] at room ⊢; omega) fits
  simp only [headerSize, tailCanaryBytes, heapAlign, pageSize, Span.stop] at room hal stop above lenAligned choice
  have ptr : add64 span.start headerSize = span.start + headerSize := by
    simp only [add64, headerSize]
    omega
  have back : span.start + headerSize - headerSize = span.start := Nat.add_sub_cancel ..
  have bounds : state.heap.heapLow ≤ span.start ∧ span.start < state.heap.heapHigh := by
    simp only [Heap.suspicious, Bool.or_eq_false_iff, decide_eq_false_iff_not] at trusted
    omega
  obtain ⟨shorter, covers⟩ := intact.separated.dropFront (show 0 < ht by omega) (show ht ≤ span.len by omega)
  -- Bytes out the free blocks are not written.
  have spared : ∀ pos, ¬ Covered (pre ++ span :: after) pos → mem pos = state.heap.mem pos := by
    intro pos notFree
    refine takes.frame pos ?_ fun left leftMember => ?_
    · have notSpan : ¬ span.Has pos := fun has => notFree ⟨span, member, has⟩
      simp only [Span.Has] at notSpan
      omega
    · have leftRoom := ord.room left (mem_append_left _ leftMember)
      have notLeft : ¬ left.Has pos := fun has => notFree ⟨left, mem_append_left _ leftMember, has⟩
      simp only [Span.Has, Span.stop] at notLeft
      omega
  have kept : ∀ alloc ∈ state.live,
      LiveBlock { state.heap with mem := mem, freeList := freeList } alloc ∧
        alloc.block mem = alloc.block state.heap.mem := by
    intro alloc live
    apply (intact.live alloc live).kept
    · exact fun pos has => spared pos (intact.apart alloc live pos has)
    · exact Nat.le_refl _
    · exact Nat.le_refl _
  have block : Allocation.block mem ⟨span.start + headerSize, size⟩ = ⟨span.start, ht⟩ := by
    rw [Allocation.block, back, takes.size]
  have covered : ∀ pos, (Span.mk span.start ht).Has pos → Covered (pre ++ span :: after) pos := by
    intro pos has
    refine ⟨span, member, has.1, ?_⟩
    have := has.2
    simp only [Span.stop] at this ⊢
    omega
  rw [eq, ptr]
  refine ⟨by simp only [headerSize]; omega, pre ++ (dropFront span ht ++ after), ?_⟩
  refine ⟨takes.path, shorter, ?_, ?_, ?_, ?_, fun pos => ?_, intact.placed, intact.bounds⟩
  · intro other otherMember
    rw [mem_append, mem_append] at otherMember
    rcases otherMember with listed | listed | listed
    · exact intact.shape other (mem_append_left _ listed)
    · unfold dropFront at listed
      split at listed
      · cases listed
      · rw [mem_singleton.mp listed]
        simp only [BlockShape, headerSize, heapAlign] at startAligned ⊢
        omega
    · exact intact.shape other (mem_append_right _ (.tail _ listed))
  · refine forall_mem_cons.mpr ⟨?_, fun alloc live => (kept alloc live).1⟩
    constructor <;> simp only [block, back]
    · simp only [headerSize]
      omega
    · exact startAligned
    · simp only [heapAlign]
      omega
    · simp only [headerSize, tailCanaryBytes]
      omega
    · exact takes.magic
    · exact takes.place
    · rw [takes.place]
      exact takes.canary
    · exact bounds.1
    · exact bounds.2
  · refine pairwise_cons.mpr ⟨fun alloc live pos has => ?_, ?_⟩
    · rw [block] at has
      rw [(kept alloc live).2]
      exact fun other => intact.apart alloc live pos other (covered pos has)
    · refine intact.distinct.imp_of_mem fun {one other} oneLive otherLive ne => ?_
      rwa [(kept one oneLive).2, (kept other otherLive).2]
  · refine forall_mem_cons.mpr ⟨fun pos has => ?_, fun alloc live pos has => ?_⟩
    · rw [block] at has
      exact fun rest => ((covers pos).mp rest).2 has
    · rw [(kept alloc live).2] at has
      exact fun rest => intact.apart alloc live pos has ((covers pos).mp rest).1
  · rw [intact.whole pos, covers pos]
    constructor
    · rintro (inFree | ⟨alloc, live, has⟩)
      · by_cases inFront : (Span.mk span.start ht).Has pos
        · exact .inr ⟨_, .head _, block ▸ inFront⟩
        · exact .inl ⟨inFree, inFront⟩
      · grind
    · rintro (⟨inFree, _⟩ | ⟨alloc, live, has⟩)
      · exact .inl inFree
      · rcases mem_cons.mp live with rfl | live
        · rw [block] at has
          exact .inl (covered pos has)
        · grind

theorem countMapped_le (outcome : GrowOutcome) (pages : Nat) : Heap.countMapped outcome pages ≤ pages := by
  have := (takeWhile_sublist (l := List.range pages) fun i => outcome.physOk i && outcome.mapOk i).length_le
  rwa [length_range] at this

theorem HeapState.Intact.grow {total : Nat} {outcome : GrowOutcome} (intact : state.Intact free)
    (fresh : outcome.Fresh state.heap (Heap.growPages total)) :
    state.heap.grow total outcome = some (state.heap, false) ∨
    ∃ heap free', state.heap.grow total outcome = some (heap, true) ∧ HeapState.Intact ⟨heap, state.live⟩ free' := by
  unfold Heap.grow
  by_cases refused : outcome.base = 0
  · exact .inl (if_pos refused)
  rw [if_neg refused]
  obtain ⟨hal, ends, unused⟩ := fresh refused
  have count := countMapped_le outcome (Heap.growPages total)
  generalize mapped_eq : Heap.countMapped outcome (Heap.growPages total) = mapped at count
  by_cases none_ : mapped = 0
  · exact .inl (if_pos none_)
  rw [if_neg none_]
  right
  have above : pageSize ≤ outcome.base := by
    simp only [pageSize] at hal ⊢
    omega
  have scaled : mapped * pageSize ≤ Heap.growPages total * pageSize := Nat.mul_le_mul_right _ count
  have bytes : mul64 mapped pageSize = mapped * pageSize := by
    apply mul64_eq
    omega
  have stop : (Span.mk outcome.base (mapped * pageSize)).stop ≤ 2 ^ 64 := by
    simp only [Span.stop]
    omega
  -- Mapped bytes, and so all blocks, lie out the new range.
  have out : ∀ pos, (Span.mk outcome.base (mapped * pageSize)).Has pos → ¬ Covered state.heap.regions pos := by
    intro pos has
    refine unused pos has.1 ?_
    have := has.2
    simp only [Span.stop] at this
    omega
  have lt : mapped * pageSize < 2 ^ 64 := by
    omega
  obtain ⟨mem, eq, size, _, _, written⟩ := freeHeader state.heap.mem outcome.base lt (show 0 < 2 ^ 64 by decide)
  simp only [bytes, eq]
  have unwritten : ∀ pos, Covered state.heap.regions pos → mem pos = state.heap.mem pos := by
    intro pos mapped'
    refine written pos ?_
    have notNew : ¬ (Span.mk outcome.base (mapped * pageSize)).Has pos := fun has => out pos has mapped'
    simp only [Span.Has, Span.stop, pageSize, headerSize] at notNew ⊢
    omega
  have ord := Separated.ordered intact.separated intact.shape
  have path : FreePath mem state.heap.freeList free 0 := by
    refine intact.path.frame fun span member pos low high => unwritten pos ((intact.whole pos).mpr (.inl ⟨span, member, low, ?_⟩))
    have := ord.room span member
    simp only [Span.stop]
    omega
  have shape : BlockShape ⟨outcome.base, mapped * pageSize⟩ := by
    simp only [BlockShape, heapAlign, headerSize, pageSize] at hal ⊢
    omega
  obtain ⟨mem', freeList, free', ins, path', separated, shapes, covers, kept⟩ := insert_block
    { state.heap with mem := mem } path intact.separated intact.shape
    (fun span member => (intact.freeInside span member).2)
    (fun pos has inFree => out pos has ((intact.whole pos).mpr (.inl inFree)))
    (show 0 < outcome.base by omega) shape size stop
  simp only [ins]
  have lower := intact.bounds
  have same' : ∀ pos, Covered state.heap.regions pos → ¬ Covered free pos → mem' pos = state.heap.mem pos := by
    intro pos inHeap notFree
    exact (kept pos (fun has => out pos has inHeap) notFree).trans (unwritten pos inHeap)
  let grown : Heap := { state.heap with
    mem := mem'
    freeList := freeList
    heapSize := add64 state.heap.heapSize (mapped * pageSize)
    heapLow := if state.heap.heapLow = 0 ∨ outcome.base < state.heap.heapLow then outcome.base
      else state.heap.heapLow
    heapHigh := if state.heap.heapHigh = 0 ∨ state.heap.heapHigh < add64 outcome.base (mapped * pageSize) then
      add64 outcome.base (mapped * pageSize) else state.heap.heapHigh
    regions := ⟨outcome.base, mapped * pageSize⟩ :: state.heap.regions }
  have low : grown.heapLow ≤ state.heap.heapLow ∧ 0 < grown.heapLow := by
    simp only [grown]
    split <;> omega
  have high : state.heap.heapHigh ≤ grown.heapHigh := by
    simp only [grown]
    split <;> omega
  have keeps : ∀ alloc ∈ state.live, LiveBlock grown alloc ∧
      alloc.block mem' = alloc.block state.heap.mem := by
    intro alloc live
    apply (intact.live alloc live).kept _ low.1 high
    exact fun pos has => same' pos ((intact.whole pos).mpr (.inr ⟨alloc, live, has⟩))
      (intact.apart alloc live pos has)
  refine ⟨grown, free', rfl, path', separated, shapes, ?_, ?_, ?_, fun pos => ?_, ?_, low.2⟩
  · exact fun alloc live => (keeps alloc live).1
  · refine intact.distinct.imp_of_mem fun {one other} oneLive otherLive ne => ?_
    rwa [(keeps one oneLive).2, (keeps other otherLive).2]
  · intro alloc live pos has inFree
    rw [(keeps alloc live).2] at has
    rcases (covers pos).mp inFree with new | old
    · exact out pos new ((intact.whole pos).mpr (.inr ⟨alloc, live, has⟩))
    · exact intact.apart alloc live pos has old
  · have live : (∃ alloc ∈ state.live, (alloc.block mem').Has pos) ↔
        ∃ alloc ∈ state.live, (alloc.block state.heap.mem).Has pos := by
      refine exists_congr fun alloc => and_congr_right fun live => ?_
      rw [(keeps alloc live).2]
    change Covered (_ :: state.heap.regions) pos ↔ Covered free' pos ∨ ∃ alloc ∈ state.live,
      (alloc.block mem').Has pos
    rw [covered_cons, covers pos, intact.whole pos, live, or_assoc]
  · exact forall_mem_cons.mpr ⟨⟨above, stop⟩, intact.placed⟩

section

variable {alloc : Allocation} (intact : state.Intact free) (live : alloc ∈ state.live)
include intact live

theorem HeapState.Intact.release : ∃ heap free', state.heap.free alloc.ptr = some (heap, false) ∧
      HeapState.Intact ⟨heap, state.live.filter fun other => other.ptr ≠ alloc.ptr⟩ free' := by
  have block := intact.live alloc live
  obtain ⟨above, stop⟩ := intact.liveInside alloc live
  have named := block.named
  have room := block.room
  have low := block.low
  have high := block.high
  simp only [headerSize, tailCanaryBytes, pageSize] at named room above
  have header : sub64 alloc.ptr headerSize = (alloc.block state.heap.mem).start := by
    have ptr : alloc.ptr < 2 ^ 64 := by
      simp only [Allocation.block, Span.stop, headerSize] at stop room
      omega
    exact sub64_eq (Nat.le_of_lt block.named) ptr
  have start : (alloc.block state.heap.mem).start = alloc.ptr - headerSize := rfl
  have set : ¬ state.heap.boundsUnset = true := by
    have := intact.bounds
    simp only [Heap.boundsUnset, Bool.or_eq_true, decide_eq_true_eq]
    omega
  have whole : canaryBroken state.heap.mem (alloc.ptr - headerSize) = false := by
    rw [canaryBroken, block.canary, bne_self_eq_false, Bool.and_false]
  unfold Heap.free
  rw [if_neg (by omega), header, if_neg set, if_neg (by rw [start]; omega), start,
    if_neg (not_not.mpr block.magic), whole, ← start]
  -- Everything out the freed block still stands after the mark is cleared.
  have unwritten : ∀ pos, ¬ (alloc.block state.heap.mem).Has pos →
      setMagic state.heap.mem (alloc.block state.heap.mem).start magicFree pos = state.heap.mem pos := by
    intro pos notBlock
    apply store_outside
    simp only [Span.Has, Span.stop] at notBlock room
    omega
  have ord := Separated.ordered intact.separated intact.shape
  have path : FreePath (setMagic state.heap.mem (alloc.block state.heap.mem).start magicFree)
      state.heap.freeList free 0 := by
    refine intact.path.frame fun span member pos first last => unwritten pos fun has => ?_
    refine intact.apart alloc live pos has ⟨span, member, first, ?_⟩
    have := ord.room span member
    simp only [Span.stop]
    omega
  have shape : BlockShape (alloc.block state.heap.mem) := by
    refine ⟨block.aligned, block.whole, ?_⟩
    simp only [headerSize, heapAlign]
    omega
  obtain ⟨mem, freeList, free', ins, path', separated, shapes, covers, kept⟩ := insert_block
    { state.heap with mem := setMagic state.heap.mem (alloc.block state.heap.mem).start magicFree } path
    intact.separated intact.shape (fun span member => (intact.freeInside span member).2) (intact.apart alloc live)
    (by omega) shape blockSize_setMagic stop
  let freed : Heap := { state.heap with mem := mem, freeList := freeList }
  have others : ∀ other ∈ state.live, other.ptr ≠ alloc.ptr → LiveBlock freed other ∧
      other.block mem = other.block state.heap.mem := by
    intro other otherLive differ
    have notBlock : ∀ pos, (other.block state.heap.mem).Has pos → ¬ (alloc.block state.heap.mem).Has pos :=
      fun pos has inBlock => differ (congrArg Allocation.ptr (intact.unique otherLive live has inBlock))
    apply (intact.live other otherLive).kept
    · exact fun pos has => (kept pos (notBlock pos has) (intact.apart other otherLive pos has)).trans
        (unwritten pos (notBlock pos has))
    · exact Nat.le_refl _
    · exact Nat.le_refl _
  have remains : ∀ other, other ∈ state.live.filter (fun other => other.ptr ≠ alloc.ptr) ↔
      other ∈ state.live ∧ other.ptr ≠ alloc.ptr := fun other => by simp
  refine ⟨freed, free', by simp only [ins, freed], path', separated, shapes, ?_, ?_, ?_, fun pos => ?_,
    intact.placed, intact.bounds⟩
  · grind
  · refine (intact.distinct.filter _).imp_of_mem fun {one other} oneMember otherMember ne => ?_
    obtain ⟨oneLive, oneDiffers⟩ := (remains one).mp oneMember
    obtain ⟨otherLive, otherDiffers⟩ := (remains other).mp otherMember
    rwa [(others one oneLive oneDiffers).2, (others other otherLive otherDiffers).2]
  · intro other member pos has inFree
    obtain ⟨otherLive, differ⟩ := (remains other).mp member
    rw [(others other otherLive differ).2] at has
    rcases (covers pos).mp inFree with inBlock | inOld
    · exact differ (congrArg Allocation.ptr (intact.unique otherLive live has inBlock))
    · exact intact.apart other otherLive pos has inOld
  · change Covered state.heap.regions pos ↔ Covered free' pos ∨ ∃ other ∈ state.live.filter
      (fun other => other.ptr ≠ alloc.ptr), (other.block mem).Has pos
    rw [intact.whole pos, covers pos]
    constructor
    · rintro (inFree | ⟨other, otherLive, has⟩)
      · exact .inl (.inr inFree)
      · by_cases differ : other.ptr = alloc.ptr
        · rw [Allocation.block, differ] at has
          exact .inl (.inl has)
        · grind
    · rintro ((inBlock | inFree) | ⟨other, member, has⟩)
      · exact .inr ⟨alloc, live, inBlock⟩
      · exact .inl inFree
      · grind

theorem HeapState.Intact.write {addr : Nat} {value : UInt8} (first : alloc.ptr ≤ addr) (last : addr < alloc.ptr + alloc.size) :
    HeapState.Intact ⟨{ state.heap with mem := update state.heap.mem addr value }, state.live⟩ free := by
  have block := intact.live alloc live
  have named := block.named
  have room := block.room
  have start : (alloc.block state.heap.mem).start = alloc.ptr - headerSize := rfl
  simp only [headerSize, tailCanaryBytes] at named room start
  have hin : (alloc.block state.heap.mem).Has addr := by
    simp only [Span.Has, Span.stop]
    omega
  have ord := Separated.ordered intact.separated intact.shape
  have keeps : ∀ other ∈ state.live,
      LiveBlock { state.heap with mem := update state.heap.mem addr value } other ∧
        other.block (update state.heap.mem addr value) = other.block state.heap.mem := by
    intro other otherLive
    have otherBlock := intact.live other otherLive
    by_cases eq : other = alloc
    · subst eq
      apply otherBlock.frame
      · intro pos low high
        apply update_of_ne
        simp only [headerSize] at low high
        omega
      · intro pos low high
        apply update_of_ne
        simp only [Span.stop, tailCanaryBytes] at low high
        omega
      · exact Nat.le_refl _
      · exact Nat.le_refl _
    · apply otherBlock.kept
      · intro pos has
        apply update_of_ne
        rintro rfl
        exact eq (intact.unique otherLive live has hin)
      · exact Nat.le_refl _
      · exact Nat.le_refl _
  refine ⟨?_, intact.separated, intact.shape, fun other otherLive => (keeps other otherLive).1, ?_, ?_, fun pos => ?_,
    intact.placed, intact.bounds⟩
  · refine intact.path.frame fun span member pos low high => update_of_ne ?_ _ _
    rintro rfl
    refine intact.apart alloc live pos hin ⟨span, member, low, ?_⟩
    have := ord.room span member
    simp only [Span.stop]
    omega
  · refine intact.distinct.imp_of_mem fun {one other} oneLive otherLive ne => ?_
    rwa [(keeps one oneLive).2, (keeps other otherLive).2]
  · intro other otherLive pos has
    rw [(keeps other otherLive).2] at has
    exact intact.apart other otherLive pos has
  · rw [intact.whole pos]
    refine or_congr_right (exists_congr fun other => and_congr_right fun otherLive => ?_)
    rw [(keeps other otherLive).2]

end

/-- An `Alloc` that returns leaves an intact heap, with the block it served live. -/
def HeapState.Served (state : HeapState) (size : Nat) (result : Option (Nat × Heap)) : Prop :=
  ∃ ptr heap free, result = some (ptr, heap) ∧
    HeapState.Intact ⟨heap, if ptr = 0 then state.live else ⟨ptr, size⟩ :: state.live⟩ free

theorem HeapState.Intact.refused {size : Nat} (intact : state.Intact free) : state.Served size (some (0, state.heap)) :=
  ⟨0, state.heap, free, rfl, intact⟩

theorem HeapState.Intact.search {size total : Nat} (intact : state.Intact free) (refuse : Nat → Bool)
    (checks : ∀ cur, refuse cur = false → state.heap.suspicious cur = false)
    (room : headerSize + size + tailCanaryBytes ≤ total) (hal : total % heapAlign = 0) :
    (∃ prev, state.heap.search refuse total = some (prev, none)) ∨
    ∃ prev cur, state.heap.search refuse total = some (prev, some cur) ∧
      state.Served size (if refuse cur then some (0, state.heap)
        else some (add64 cur headerSize, state.heap.takeBlock prev cur total)) := by
  have ord := Separated.ordered intact.separated intact.shape
  have bounded := fun span mem => (intact.freeInside span mem).2
  rcases intact.path.search ord bounded refuse total with missed | ⟨pre, span, after, rfl, hf, stops⟩
  · exact .inl missed
  · right
    refine ⟨_, _, hf, ?_⟩
    cases refused : refuse span.start with
    | true => exact intact.refused
    | false =>
      rw [if_neg Bool.false_ne_true]
      have fits : total ≤ span.len := stops.resolve_left (by simp [refused])
      obtain ⟨named, free', ht⟩ := intact.take (checks _ refused) room hal fits
      refine ⟨_, _, free', rfl, ?_⟩
      rwa [if_neg named]

theorem HeapState.Intact.alloc {size : Nat} {outcome : GrowOutcome} (intact : state.Intact free)
    (lt : size + tailCanaryBytes + (heapAlign - 1) + headerSize ≤ 2 ^ 64 - 1)
    (fresh : outcome.Fresh state.heap (Heap.growPages (Heap.totalSize size))) :
    state.Served size (state.heap.alloc size outcome) := by
  obtain ⟨room, hal⟩ := totalSize_spec lt
  unfold Heap.alloc
  by_cases zero : size = 0
  · rw [if_pos zero]
    exact intact.refused
  rw [if_neg zero, if_neg (by simp only [tailCanaryBytes, headerSize] at lt ⊢; omega)]
  rcases intact.search (fun cur => state.heap.boundsUnset || state.heap.suspicious cur)
    (fun cur passed => (Bool.or_eq_false_iff.mp passed).2) room hal with
    ⟨prev, missed⟩ | ⟨prev, cur, hf, served⟩
  · simp only [missed]
    rcases intact.grow fresh with failed | ⟨heap, free', grown, intact'⟩
    · rw [failed]
      exact intact.refused
    · simp only [grown, Heap.retry]
      rcases intact'.search heap.suspicious (fun _ passed => passed) room hal with
        ⟨_, missed'⟩ | ⟨_, _, hf', served'⟩
      · simp only [missed']
        exact intact'.refused
      · simp only [hf']
        exact served'
  · simp only [hf]
    exact served

theorem HeapState.Intact.next {op : HeapOp} (intact : state.Intact free) (called : state.Called op) :
    ∃ after free', state.step op = some after ∧ after.Intact free' := by
  cases op with
  | alloc size outcome =>
    obtain ⟨ptr, heap, free', res, intact'⟩ := intact.alloc called.1 called.2
    exact ⟨_, free', by simp only [step, res], intact'⟩
  | free ptr =>
    obtain ⟨allocation, live, eq⟩ := called
    obtain ⟨heap, free', res, intact'⟩ := intact.release live
    rw [eq] at res intact'
    exact ⟨_, free', by simp only [step, res], intact'⟩
  | write addr value =>
    obtain ⟨allocation, live, first, last⟩ := called
    exact ⟨_, free, rfl, intact.write live first last⟩

end

/-! ## Main result -/

theorem HeapState.boot_intact (mem : Bytes) {pages vaddr : Nat} (range : InitRange pages vaddr) :
    ∃ free, (boot mem pages vaddr).Intact free := by
  obtain ⟨named, hal, ends⟩ := range
  generalize count : (if pages = 0 then 16 else pages) = mapped at ends
  have some_ : 0 < mapped := by
    rw [← count]
    split <;> omega
  simp only [pageSize] at hal ends
  have bytes : mul64 mapped pageSize = mapped * pageSize := by
    apply mul64_eq
    simp only [pageSize]
    omega
  have lt : mapped * pageSize < 2 ^ 64 := by
    simp only [pageSize]
    omega
  obtain ⟨mem', eq, size, magic, next, _⟩ := freeHeader mem vaddr lt (show 0 < 2 ^ 64 by decide)
  have shape : BlockShape ⟨vaddr, mapped * pageSize⟩ := by
    simp only [BlockShape, heapAlign, headerSize, pageSize]
    omega
  refine ⟨[⟨vaddr, mapped * pageSize⟩], ?_⟩
  simp only [boot, Heap.init, count, bytes, eq]
  refine ⟨⟨rfl, Nat.pos_of_ne_zero named, size, magic, next⟩, ?_, ?_, ?_, List.Pairwise.nil, ?_, fun pos => ?_, ?_,
    Nat.pos_of_ne_zero named⟩
  · refine separated_cons.mpr ⟨?_, fun _ member => (by cases member), separated_nil⟩
    simp only [pageSize]
    omega
  · exact forall_mem_singleton.mpr shape
  · exact fun _ member => by cases member
  · exact fun _ member => by cases member
  · simp
  · refine forall_mem_singleton.mpr ⟨?_, ?_⟩
    · simp only [pageSize]
      omega
    · simp only [Span.stop, pageSize]
      omega

/-- Over every run of requests, releases and writes by the owners, with any answers
of the page allocators: the free list is canonical, free and live blocks partition
the mapped regions, every live block has room for its bytes and its canary, every
operation returns, and no release finds a broken canary. -/
theorem heap_intact (mem : Bytes) (pages vaddr : Nat) (range : InitRange pages vaddr) (state : HeapState)
    (reached : Reaches HeapState.step HeapState.Called (HeapState.boot mem pages vaddr) state) :
    (∃ free, state.Intact free) ∧ (∀ op, state.Called op → ∃ after, state.step op = some after) ∧
      ∀ allocation ∈ state.live, ∃ heap, state.heap.free allocation.ptr = some (heap, false) := by
  obtain ⟨free, intact⟩ := reached.invariant (fun state => ∃ free, state.Intact free)
    (HeapState.boot_intact mem range) fun pre op after intact called ht => by
    obtain ⟨free, intact⟩ := intact
    obtain ⟨next, free', hs, intact'⟩ := intact.next called
    rw [hs] at ht
    exact ⟨free', Option.some.inj ht ▸ intact'⟩
  refine ⟨⟨free, intact⟩, fun op called => ?_, fun allocation live => ?_⟩
  · obtain ⟨after, _, hs, _⟩ := intact.next called
    exact ⟨after, hs⟩
  · obtain ⟨heap, _, freed, _⟩ := intact.release live
    exact ⟨heap, freed⟩

/-- One request on a fresh heap of 16 pages, with no page left to grow. -/
theorem heap_intact_after_alloc :
    ∃ after, (HeapState.boot (fun _ => 0) 0 0xFFFFFFFF80400000).step (.alloc 100 ⟨0, fun _ => false, fun _ => false⟩) =
      some after ∧ ∃ free, after.Intact free := by
  have range : InitRange 0 0xFFFFFFFF80400000 := by
    simp only [InitRange]
    decide
  have called : (HeapState.boot (fun _ => 0) 0 0xFFFFFFFF80400000).Called
      (.alloc 100 ⟨0, fun _ => false, fun _ => false⟩) :=
    ⟨by decide, fun named => absurd rfl named⟩
  obtain ⟨after, hs⟩ := (heap_intact _ _ _ range _ .start).2.1 _ called
  exact ⟨after, hs, (heap_intact _ _ _ range _ (.next _ .start called hs)).1⟩

end RosKernel.Memory
