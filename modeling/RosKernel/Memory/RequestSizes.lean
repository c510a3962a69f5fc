import RosKernel.Memory.HeapIntegrity

/-! Heap requests of any size.

`Alloc` only checks that the size and the canary fit in 64 bits. The rounding and the header may
still wrap, and a request of almost the whole address space is then served from a block of a few bytes.
-/

set_option autoImplicit false

namespace RosKernel.Memory

open Library

/-- The sizes that pass the check of `Alloc` and wrap behind it. -/
def Wraps (size : Nat) : Prop := 2 ^ 64 - 40 < size ∧ size ≤ 2 ^ 64 - 1 - tailCanaryBytes

instance (size : Nat) : Decidable (Wraps size) := inferInstanceAs (Decidable (_ ∧ _))

/-- A pointer that is returned has the bytes of the request and the canary inside its block. -/
def Heap.Serves (heap : Heap) (size : Nat) (outcome : GrowOutcome) : Prop :=
  ∀ ptr after, heap.alloc size outcome = some (ptr, after) → ptr ≠ 0 →
    headerSize + size + tailCanaryBytes ≤ blockSize after.mem (ptr - headerSize)

/-- The range that an empty heap would grow by: at least one page, and its nodes pass the check of the bounds. -/
def Heap.Grows (heap : Heap) (outcome : GrowOutcome) : Prop :=
  let bytes := Heap.countMapped outcome 16 * pageSize
  outcome.base ≠ 0 ∧ bytes ≠ 0 ∧ (outcome.base + bytes < 2 ^ 64 ∨ outcome.base < heap.heapHigh)

/-- There is a block for the smallest request: the first on the list passes the sanity checks, or
there is none and the heap can grow. -/
def Heap.Offers (heap : Heap) (outcome : GrowOutcome) : Prop :=
  if heap.freeList = 0 then heap.Grows outcome
  else (heap.boundsUnset || heap.suspicious heap.freeList) = false

section

variable {size total cur : Nat} {mem : Bytes} {heap : Heap} {outcome : GrowOutcome}

theorem totalSize_wraps (wraps : Wraps size) : Heap.totalSize size % heapAlign = 0 ∧ Heap.totalSize size ≤ headerSize := by
  obtain ⟨large, passes⟩ := wraps
  simp only [tailCanaryBytes] at passes
  simp only [Heap.totalSize, tailCanaryBytes, heapAlign, headerSize]
  have sum : add64 size 8 = size + 8 := add64_eq (by omega)
  rw [sum]
  by_cases rounds : size + 8 + 7 < 2 ^ 64
  · rw [alignUp_eq rounds]
    simp only [add64]
    omega
  · have none_ : alignUp (size + 8) = 0 := by
      have low : add64 (size + 8) 7 < 8 := by
        simp only [add64]
        omega
      have cleared : alignUp (size + 8) = add64 (size + 8) 7 / 2 ^ 3 * 2 ^ 3 := clearLow_eq 3 (add64_lt _ _)
      rw [cleared]
      omega
    rw [none_]
    decide

theorem growPages_wraps (wraps : Wraps size) : Heap.growPages (Heap.totalSize size) = 16 := by
  obtain ⟨_, lt⟩ := totalSize_wraps wraps
  simp only [headerSize] at lt
  simp only [Heap.growPages, add64, sub64, pageSize]
  omega

theorem markAllocated_short (size : blockSize mem cur = total) (lt : total ≤ headerSize) (hal : total % heapAlign = 0)
    (above : tailCanaryBytes ≤ cur) (bounded : cur + headerSize ≤ 2 ^ 64) :
    blockSize (markAllocated mem cur) cur ≤ kmallocCanary := by
  simp only [headerSize, heapAlign, tailCanaryBytes] at lt hal above bounded
  have named : blockSize (setNext (setMagic mem cur magicAlloc) cur 0) cur = total := by
    rw [blockSize_setNext, blockSize_setMagic, size]
  have place : canaryAddr (setNext (setMagic mem cur magicAlloc) cur 0) cur = cur + total - 8 := by
    simp only [canaryAddr, named, headerSize, tailCanaryBytes, add64, sub64]
    omega
  rw [markAllocated, writeCanary, named, place]
  split
  case isFalse =>
    rw [named]
    simp only [kmallocCanary]
    omega
  case isTrue =>
    by_cases whole : total = 8
    · -- the canary is written over the size
      rw [whole, Nat.add_sub_cancel, blockSize, tailCanaryBytes, load_store]
      decide
    · rw [blockSize, load_store_apart (by simp only [tailCanaryBytes]; omega)]
      change blockSize _ cur ≤ _
      rw [named]
      simp only [kmallocCanary]
      omega

theorem relink_none (heap : Heap) (target : Nat) : heap.relink none target = { heap with freeList := target } := rfl

theorem mem_takeBlock_cut (cut : add64 (add64 total headerSize) heapAlign ≤ blockSize heap.mem cur) :
    (heap.takeBlock none cur total).mem = splitBlock heap.mem cur total := by
  rw [Heap.takeBlock, if_pos cut, relink_none]

theorem mem_takeBlock_whole (whole : ¬add64 (add64 total headerSize) heapAlign ≤ blockSize heap.mem cur) :
    (heap.takeBlock none cur total).mem = markAllocated heap.mem cur := by
  have ht : heap.takeBlock none cur total = { heap.relink none (blockNext heap.mem cur) with
      mem := markAllocated (heap.relink none (blockNext heap.mem cur)).mem cur } := if_neg whole
  rw [ht, relink_none]

section

variable (lt : total ≤ headerSize) (hal : total % heapAlign = 0) (above : tailCanaryBytes ≤ cur)
include lt hal above

theorem splitBlock_short (bounded : cur + headerSize ≤ 2 ^ 64) : blockSize (splitBlock mem cur total) cur ≤ kmallocCanary := by
  have fits : total < 2 ^ 64 := by
    simp only [headerSize] at lt
    omega
  exact markAllocated_short (blockSize_setSize fits) lt hal above bounded

theorem takeBlock_short (room : headerSize + heapAlign ≤ blockSize heap.mem cur)
    (bounded : cur + blockSize heap.mem cur ≤ 2 ^ 64) : blockSize (heap.takeBlock none cur total).mem cur ≤ kmallocCanary := by
  by_cases cut : add64 (add64 total headerSize) heapAlign ≤ blockSize heap.mem cur
  · rw [mem_takeBlock_cut cut]
    exact splitBlock_short lt hal above (by omega)
  · obtain ⟨mem', marked, size, _⟩ := markAllocated_spec rfl room bounded
    have short : blockSize heap.mem cur < 56 := by
      simp only [add64, headerSize, heapAlign] at cut lt
      omega
    rw [mem_takeBlock_whole cut, marked, size]
    simp only [kmallocCanary]
    omega

end

end

section

variable {heap : Heap} {size total : Nat} {refuse : Nat → Bool} {outcome : GrowOutcome}

theorem Heap.search_first (named : heap.freeList ≠ 0) (fits : total ≤ blockSize heap.mem heap.freeList) :
    heap.search refuse total = some (none, some heap.freeList) := by
  have stops : (refuse heap.freeList || decide (total ≤ blockSize heap.mem heap.freeList)) = true := by
    rw [decide_eq_true fits, Bool.or_true]
  unfold Heap.search
  rw [pointer, if_neg named]
  generalize addressCount = fuel
  cases fuel <;> rw [seek, if_pos stops]

theorem Heap.search_empty (empty : heap.freeList = 0) : heap.search refuse total = some (none, none) := by
  unfold Heap.search
  rw [pointer, if_pos empty]
  generalize addressCount = fuel
  cases fuel <;> rfl

theorem Heap.grow_empty (empty : heap.freeList = 0) (named : outcome.base ≠ 0)
    (mapped : Heap.countMapped outcome (Heap.growPages total) ≠ 0) :
    ∃ grown, heap.grow total outcome = some (grown, true) ∧ grown.freeList = outcome.base ∧
      blockSize grown.mem outcome.base = mul64 (Heap.countMapped outcome (Heap.growPages total)) pageSize ∧
      blockMagic grown.mem outcome.base = magicFree ∧
      grown.heapLow = (if heap.heapLow = 0 ∨ outcome.base < heap.heapLow then outcome.base else heap.heapLow) ∧
      grown.heapHigh = (let newHigh := add64 outcome.base (mul64 (Heap.countMapped outcome (Heap.growPages total)) pageSize)
        if heap.heapHigh = 0 ∨ heap.heapHigh < newHigh then newHigh else heap.heapHigh) := by
  have bytes : mul64 (Heap.countMapped outcome (Heap.growPages total)) pageSize < 2 ^ 64 := Nat.mod_lt _ (by decide)
  have magic : magicFree < 2 ^ 32 := by decide
  unfold Heap.grow Heap.insertAndCoalesce
  rw [if_neg named, if_neg mapped]
  simp only [empty, if_true]
  refine ⟨_, rfl, rfl, ?_, ?_, rfl, rfl⟩
  · simp only [blockSize_setNext, blockSize_setMagic]
    exact blockSize_setSize bytes
  · rw [blockMagic_setNext]
    exact blockMagic_setMagic magic

end

section

variable {state : HeapState} {free : List Span} {size : Nat} {outcome : GrowOutcome}

theorem alloc_first {heap : Heap} (wraps : Wraps size) (named : heap.freeList ≠ 0)
    (fits : Heap.totalSize size ≤ blockSize heap.mem heap.freeList) : heap.alloc size outcome =
      if heap.boundsUnset || heap.suspicious heap.freeList then some (0, heap)
      else some (add64 heap.freeList headerSize, heap.takeBlock none heap.freeList (Heap.totalSize size)) := by
  obtain ⟨large, passes⟩ := wraps
  unfold Heap.alloc
  rw [if_neg (by omega), if_neg (by omega)]
  dsimp only
  rw [Heap.search_first named fits]

theorem alloc_failed {heap : Heap} (wraps : Wraps size) (empty : heap.freeList = 0)
    (failed : heap.grow (Heap.totalSize size) outcome = some (heap, false)) : heap.alloc size outcome = some (0, heap) := by
  obtain ⟨large, passes⟩ := wraps
  unfold Heap.alloc
  rw [if_neg (by omega), if_neg (by omega)]
  dsimp only
  rw [Heap.search_empty empty, failed]

theorem alloc_grown {heap grown : Heap} (wraps : Wraps size) (empty : heap.freeList = 0)
    (grew : heap.grow (Heap.totalSize size) outcome = some (grown, true)) (named : grown.freeList ≠ 0)
    (fits : Heap.totalSize size ≤ blockSize grown.mem grown.freeList) : heap.alloc size outcome =
      if grown.suspicious grown.freeList then some (0, grown)
      else some (add64 grown.freeList headerSize, grown.takeBlock none grown.freeList (Heap.totalSize size)) := by
  obtain ⟨large, passes⟩ := wraps
  unfold Heap.alloc
  rw [if_neg (by omega), if_neg (by omega)]
  dsimp only
  rw [Heap.search_empty empty, grew]
  dsimp only [Heap.retry]
  rw [Heap.search_first named fits]

/-- The pointer is not null, and its block is shorter than the request. -/
def Cheats (size : Nat) (result : Option (Nat × Heap)) : Prop :=
  ∃ ptr after, result = some (ptr, after) ∧ ptr ≠ 0 ∧
    blockSize after.mem (ptr - headerSize) < headerSize + size + tailCanaryBytes

theorem cheats_take {heap : Heap} {cur : Nat} (wraps : Wraps size) (above : tailCanaryBytes ≤ cur)
    (room : headerSize + heapAlign ≤ blockSize heap.mem cur) (bounded : cur + blockSize heap.mem cur ≤ 2 ^ 64) :
    Cheats size (some (add64 cur headerSize, heap.takeBlock none cur (Heap.totalSize size))) := by
  obtain ⟨hal, lt⟩ := totalSize_wraps wraps
  have short := takeBlock_short lt hal above room bounded
  have sum : add64 cur headerSize = cur + headerSize := by
    simp only [headerSize, heapAlign] at room ⊢
    exact add64_eq (by omega)
  refine ⟨_, _, rfl, ?_, ?_⟩
  · rw [sum]
    simp only [headerSize]
    omega
  · rw [sum, Nat.add_sub_cancel]
    refine Nat.lt_of_le_of_lt short ?_
    obtain ⟨large, _⟩ := wraps
    simp only [kmallocCanary, headerSize, tailCanaryBytes]
    omega

theorem HeapState.Intact.first_block (intact : state.Intact free) (named : state.heap.freeList ≠ 0) :
    headerSize + heapAlign ≤ blockSize state.heap.mem state.heap.freeList ∧
      state.heap.freeList + blockSize state.heap.mem state.heap.freeList ≤ 2 ^ 64 ∧ pageSize ≤ state.heap.freeList := by
  have path := intact.path
  cases free with
  | nil => exact absurd path named
  | cons span rest =>
    obtain ⟨first, _, size, _⟩ := path
    obtain ⟨above, stop⟩ := intact.freeInside span (.head _)
    rw [first, size]
    exact ⟨(intact.shape span (.head _)).2.2, stop, above⟩

theorem suspicious_grown {heap grown : Heap} {base bytes : Nat} (hal : base % heapAlign = 0)
    (pos : bytes ≠ 0) (ends : base + bytes ≤ 2 ^ 64) (magic : blockMagic grown.mem base = magicFree)
    (low : grown.heapLow = if heap.heapLow = 0 ∨ base < heap.heapLow then base else heap.heapLow)
    (high : grown.heapHigh = let newHigh := add64 base bytes
      if heap.heapHigh = 0 ∨ heap.heapHigh < newHigh then newHigh else heap.heapHigh) :
    grown.suspicious base = false ↔ base + bytes < 2 ^ 64 ∨ base < heap.heapHigh := by
  have below : ¬base < grown.heapLow := by
    rw [low]
    split <;> omega
  have reaches : grown.heapHigh ≤ base ↔ ¬(base + bytes < 2 ^ 64 ∨ base < heap.heapHigh) := by
    rw [high]
    dsimp only [add64]
    by_cases hin : base + bytes < 2 ^ 64
    · rw [Nat.mod_eq_of_lt hin]
      split <;> omega
    · have top : base + bytes = 2 ^ 64 := by omega
      rw [top, Nat.mod_self]
      split <;> omega
  simp only [Heap.suspicious, below, hal, magic, decide_false, Bool.false_or, bne_self_eq_false, Bool.or_false,
    decide_eq_false_iff_not, reaches, not_not]

theorem Heap.serves_of_null {heap after : Heap} (null : heap.alloc size outcome = some (0, after)) :
    heap.Serves size outcome := by
  intro ptr other ret named
  rw [null] at ret
  obtain ⟨rfl, _⟩ := Prod.mk.injEq .. ▸ Option.some.inj ret
  exact absurd rfl named

theorem Heap.not_serves {heap : Heap} (cheats : Cheats size (heap.alloc size outcome)) : ¬heap.Serves size outcome := by
  obtain ⟨ptr, after, ret, named, short⟩ := cheats
  exact fun serves => Nat.not_le_of_lt short (serves ptr after ret named)

theorem serves_iff_refused {heap other : Heap} {refused : Bool} {cur : Nat} (wraps : Wraps size)
    (answer : heap.alloc size outcome = if refused then some (0, other)
      else some (add64 cur headerSize, other.takeBlock none cur (Heap.totalSize size)))
    (above : pageSize ≤ cur) (room : headerSize + heapAlign ≤ blockSize other.mem cur)
    (bounded : cur + blockSize other.mem cur ≤ 2 ^ 64) : heap.Serves size outcome ↔ ¬refused = false := by
  have far : tailCanaryBytes ≤ cur := Nat.le_trans (by decide) above
  cases refused with
  | true => exact iff_of_true (Heap.serves_of_null answer) (by decide)
  | false =>
    have cheats : Cheats size (heap.alloc size outcome) := answer ▸ cheats_take wraps far room bounded
    exact iff_of_false (Heap.not_serves cheats) (fun differ => differ rfl)

theorem HeapState.Intact.wrapped_first (intact : state.Intact free) (wraps : Wraps size)
    (named : state.heap.freeList ≠ 0) : state.heap.Serves size outcome ↔
      ¬(state.heap.boundsUnset || state.heap.suspicious state.heap.freeList) = false := by
  obtain ⟨room, bounded, above⟩ := intact.first_block named
  have fits : Heap.totalSize size ≤ blockSize state.heap.mem state.heap.freeList :=
    Nat.le_trans (totalSize_wraps wraps).2 (Nat.le_trans (Nat.le_add_right ..) room)
  exact serves_iff_refused wraps (alloc_first wraps named fits) above room bounded

theorem HeapState.Intact.wrapped_empty (wraps : Wraps size) (empty : state.heap.freeList = 0)
    (fresh : outcome.Fresh state.heap (Heap.growPages (Heap.totalSize size))) :
    state.heap.Serves size outcome ↔ ¬state.heap.Grows outcome := by
  have pages := growPages_wraps wraps
  rw [pages] at fresh
  by_cases barren : outcome.base = 0 ∨ Heap.countMapped outcome 16 = 0
  · have failed : state.heap.grow (Heap.totalSize size) outcome = some (state.heap, false) := by
      unfold Heap.grow
      rw [pages]
      rcases barren with nowhere | unmapped
      · exact if_pos nowhere
      · split
        case isTrue => rfl
        case isFalse => exact if_pos unmapped
    have stuck : ¬state.heap.Grows outcome := by
      rintro ⟨somewhere, mapped, _⟩
      rcases barren with nowhere | unmapped
      · exact somewhere nowhere
      · exact mapped (by rw [unmapped, Nat.zero_mul])
    exact iff_of_true (Heap.serves_of_null (alloc_failed wraps empty failed)) stuck
  · obtain ⟨named, mapped⟩ := not_or.mp barren
    obtain ⟨hal, ends, _⟩ := fresh named
    obtain ⟨grown, grew, first, length, magic, low, high⟩ :=
      @Heap.grow_empty state.heap (Heap.totalSize size) outcome empty named (pages ▸ mapped)
    rw [pages] at length high
    have count := countMapped_le outcome 16
    have scaled : Heap.countMapped outcome 16 * pageSize ≤ 16 * pageSize := Nat.mul_le_mul_right _ count
    have bytes : mul64 (Heap.countMapped outcome 16) pageSize = Heap.countMapped outcome 16 * pageSize := by
      apply mul64_eq
      omega
    have large : pageSize ≤ Heap.countMapped outcome 16 * pageSize := Nat.le_mul_of_pos_left _ (Nat.pos_of_ne_zero mapped)
    have stop : outcome.base + Heap.countMapped outcome 16 * pageSize ≤ 2 ^ 64 := Nat.le_trans (Nat.add_le_add_left scaled _) ends
    rw [bytes] at length high
    have grows : state.heap.Grows outcome ↔ outcome.base + Heap.countMapped outcome 16 * pageSize < 2 ^ 64 ∨
        outcome.base < state.heap.heapHigh :=
      ⟨fun grows => grows.2.2, fun reaches => ⟨named, Nat.ne_of_gt (Nat.lt_of_lt_of_le (by decide) large), reaches⟩⟩
    generalize Heap.countMapped outcome 16 * pageSize = extent at *
    have above : pageSize ≤ outcome.base := Nat.le_of_dvd (Nat.pos_of_ne_zero named) (Nat.dvd_of_mod_eq_zero hal)
    have block : blockSize grown.mem grown.freeList = extent := first ▸ length
    have room : headerSize + heapAlign ≤ blockSize grown.mem grown.freeList :=
      block ▸ Nat.le_trans (by decide) large
    have fits : Heap.totalSize size ≤ blockSize grown.mem grown.freeList :=
      Nat.le_trans (totalSize_wraps wraps).2 (Nat.le_trans (Nat.le_add_right ..) room)
    have answer := alloc_grown wraps empty grew (first ▸ named) fits
    have trusted := suspicious_grown (show outcome.base % heapAlign = 0 by simp only [heapAlign, pageSize] at hal ⊢; omega)
      (Nat.ne_of_gt (Nat.lt_of_lt_of_le (by decide) large)) stop magic low high
    rw [grows, ← trusted, ← first]
    exact serves_iff_refused wraps answer (first ▸ above) room (block ▸ first ▸ stop)

/-- A request is served inside its block unless its size wraps and there is a block to cheat with. -/
theorem alloc_serves_iff (intact : state.Intact free) (word : size < 2 ^ 64)
    (fresh : outcome.Fresh state.heap (Heap.growPages (Heap.totalSize size))) :
    state.heap.Serves size outcome ↔ ¬(Wraps size ∧ state.heap.Offers outcome) := by
  by_cases wraps : Wraps size
  · have offered : state.heap.Serves size outcome ↔ ¬state.heap.Offers outcome := by
      unfold Heap.Offers
      by_cases empty : state.heap.freeList = 0
      · rw [if_pos empty]
        exact HeapState.Intact.wrapped_empty wraps empty fresh
      · rw [if_neg empty]
        exact intact.wrapped_first wraps empty
    rw [offered, not_and]
    exact ⟨fun refused _ => refused, fun refused => refused wraps⟩
  · refine iff_of_true ?_ fun both => wraps both.1
    by_cases lt : size + tailCanaryBytes + (heapAlign - 1) + headerSize ≤ 2 ^ 64 - 1
    · obtain ⟨ptr, heap, free', ret, intact'⟩ := intact.alloc lt fresh
      intro ptr' after returned' named
      rw [ret] at returned'
      obtain ⟨rfl, rfl⟩ := Prod.mk.injEq .. ▸ Option.some.inj returned'
      rw [if_neg named] at intact'
      exact (intact'.live _ (.head _)).room
    · have huge : 2 ^ 64 - 1 - tailCanaryBytes < size := by
        simp only [Wraps, tailCanaryBytes, heapAlign, headerSize] at wraps lt ⊢
        omega
      have refused : state.heap.alloc size outcome = some (0, state.heap) := by
        unfold Heap.alloc
        rw [if_neg (by omega), if_pos huge]
      exact Heap.serves_of_null refused

end

/-- The fresh heap of 16 pages serves a request of 100 bytes. -/
theorem alloc_serves_hundred :
    (HeapState.boot (fun _ => 0) 0 0xFFFFFFFF80400000).heap.Serves 100 ⟨0, fun _ => false, fun _ => false⟩ := by
  have range : InitRange 0 0xFFFFFFFF80400000 := by
    simp only [InitRange]
    decide
  obtain ⟨free, intact⟩ := HeapState.boot_intact (fun _ => 0) range
  exact (alloc_serves_iff intact (by decide) fun named => absurd rfl named).mpr fun both => absurd both.1 (by decide)

/-- The same heap hands out a block of 24 bytes for the largest size that passes the check. -/
theorem alloc_cheats_largest :
    (∃ free, (HeapState.boot (fun _ => 0) 0 0xFFFFFFFF80400000).Intact free) ∧
      ¬(HeapState.boot (fun _ => 0) 0 0xFFFFFFFF80400000).heap.Serves (2 ^ 64 - 9)
        ⟨0, fun _ => false, fun _ => false⟩ := by
  have range : InitRange 0 0xFFFFFFFF80400000 := by
    simp only [InitRange]
    decide
  obtain ⟨free, intact⟩ := HeapState.boot_intact (fun _ => 0) range
  refine ⟨⟨free, intact⟩, fun serves => ?_⟩
  exact (intact.wrapped_first (by decide) (by decide +kernel)).mp serves (by decide +kernel)

end RosKernel.Memory
