import RosKernel.Library.Runs
import RosKernel.Memory.Virtual

/-! Live and free pages of the kernel virtual pool over a run of its allocator.

Callers hold addresses, so a page is live under the number its address gives back:
a returned null pointer makes nothing live. The run also records whether a free
ever met the exhausted node pool.
-/

set_option autoImplicit false

namespace RosKernel.Memory

open Library

structure VirtualState where
  pool : VirtualPool
  live : Set Nat
  dropped : Bool

inductive VirtualOp where
  | alloc (count : UInt64)
  | free (addr count : UInt64)

def pageRange (addr count : Nat) : Set Nat :=
  { page | addr / pageSize ≤ page ∧ page < addr / pageSize + count }

def initialPages (kernelVirtEnd : Nat) (memmap : Option (List BootMemRegion)) : Span :=
  ⟨poolBase kernelVirtEnd / pageSize, totalVirtualPages memmap⟩

namespace VirtualState

def boot (kernelVirtEnd : Nat) (memmap : Option (List BootMemRegion)) : VirtualState :=
  ⟨virtual kernelVirtEnd memmap, ∅, false⟩

section

variable (state : VirtualState)
include state

def step : VirtualOp → Option VirtualState
  | .alloc count =>
    match virtualAllocPages state.pool count.toNat with
    | none => none
    | some (addr, pool) => some { state with
        pool := pool
        live := if addr = 0 then state.live else state.live ∪ pageRange addr count.toNat }
  | .free addr count =>
    match virtualFreePages state.pool addr.toNat count.toNat with
    | none => none
    | some (pool, logged) => some {
        pool := pool
        live := state.live \ pageRange addr.toNat count.toNat
        dropped := state.dropped || logged }

/-- Callers free only pages that are live. -/
def Called : VirtualOp → Prop
  | .alloc _ => True
  | .free addr count => pageRange addr.toNat count.toNat ⊆ state.live

/-- The pages a request would be served from have addresses: they lie above page
zero and below the end of the address space. -/
def Addressable (count : Nat) : Prop :=
  ∀ nodes node, Chain state.pool.next state.pool.freeVmaList nodes →
    nodes.find? (fun node => count ≤ state.pool.count node) = some node →
    0 < state.pool.startPage node ∧ state.pool.startPage node + count ≤ 2 ^ 52

def CalledAddressable (op : VirtualOp) : Prop :=
  state.Called op ∧ ∀ count, op = .alloc count → state.Addressable count.toNat

end

/-- `nodes` are the free regions and `spare` the unused nodes, and every page of
the pool is free, live or, once a free was dropped, lost. -/
structure Partitioned (initial : Span) (state : VirtualState) (nodes spare : List VmaNode) : Prop where
  layout : Layout state.pool nodes spare
  separated : Separated (nodes.map state.pool.region)
  apart : ∀ page, Covered (nodes.map state.pool.region) page → page ∉ state.live
  inside : ∀ page, Covered (nodes.map state.pool.region) page ∨ page ∈ state.live → initial.Has page
  whole : state.dropped = false →
    ∀ page, initial.Has page → Covered (nodes.map state.pool.region) page ∨ page ∈ state.live

/-- Live pages have non-null addresses. -/
structure Sound (initial : Span) (state : VirtualState) (nodes spare : List VmaNode) : Prop
    extends Partitioned initial state nodes spare where
  numbered : ∀ page ∈ state.live, 0 < page ∧ page < 2 ^ 52

end VirtualState

theorem chain_successive (size index : Nat) :
    Chain (fun node : Fin size => if more : node.val + 1 < size then some ⟨node.val + 1, more⟩ else none)
      (if more : index < size then some ⟨index, more⟩ else none) ((List.finRange size).drop index) := by
  by_cases more : index < size
  · rw [dif_pos more, List.drop_eq_getElem_cons (by rwa [List.length_finRange]), List.getElem_finRange]
    exact ⟨rfl, chain_successive size (index + 1)⟩
  · rw [dif_neg more, List.drop_of_length_le (by rw [List.length_finRange]; omega)]
    rfl
termination_by size - index

theorem finRange_eq_cons {size : Nat} (pos : 0 < size) :
    List.finRange size = ⟨0, pos⟩ :: (List.finRange size).drop 1 := by
  cases size with
  | zero => exact absurd pos (Nat.lt_irrefl 0)
  | succ size => rw [List.finRange_succ, List.drop_one, List.tail_cons, Fin.zero_eta]

theorem virtual_layout (kernelVirtEnd : Nat) (memmap : Option (List BootMemRegion)) :
    ∃ node spare, Layout (virtual kernelVirtEnd memmap) [node] spare ∧
      (virtual kernelVirtEnd memmap).region node = initialPages kernelVirtEnd memmap := by
  have made : virtual kernelVirtEnd memmap = {
      region := Function.update sparePool.region ⟨0, maxVmaNodes_pos⟩ (initialPages kernelVirtEnd memmap)
      next := Function.update sparePool.next ⟨0, maxVmaNodes_pos⟩ none
      freeNodesList := sparePool.next ⟨0, maxVmaNodes_pos⟩
      freeVmaList := some ⟨0, maxVmaNodes_pos⟩ } := rfl
  have nodup := List.nodup_finRange maxVmaNodes
  rw [finRange_eq_cons maxVmaNodes_pos, List.nodup_cons] at nodup
  have chain : Chain sparePool.next (sparePool.next ⟨0, maxVmaNodes_pos⟩) ((List.finRange maxVmaNodes).drop 1) := by
    simpa only [sparePool, Nat.zero_add] using chain_successive maxVmaNodes 1
  rw [made]
  refine ⟨⟨0, maxVmaNodes_pos⟩, (List.finRange maxVmaNodes).drop 1, ⟨⟨rfl, ?_⟩, ?_, ?_⟩, ?_⟩
  · simp only [Function.update_self, Chain]
  · refine chain.congr fun other mem => Function.update_of_ne ?_ _ _
    rintro rfl
    exact nodup.1 mem
  · rw [List.singleton_append, ← finRange_eq_cons]
  · simp

theorem poolBase_page_lt (kernelVirtEnd : Nat) : poolBase kernelVirtEnd / pageSize < 2 ^ 52 := by
  have masked : poolBase kernelVirtEnd ≤ 0xFFFFFFFFFFE00000 := Nat.and_le_right
  rw [pageSize]
  omega

/-- No region of the boot memory map reaches the last four gigabytes of the
physical address range. -/
def MemmapFits (memmap : Option (List BootMemRegion)) : Prop :=
  ∀ regions, memmap = some regions →
    ∀ r ∈ regions, add64 r.base.toNat r.length.toNat < 2 ^ 64 - 2 ^ 32

theorem highestPhysicalAddr_lt {regions : List BootMemRegion} {bound : Nat} (pos : 0 < bound)
    (fits : ∀ r ∈ regions, add64 r.base.toNat r.length.toNat < bound) :
    highestPhysicalAddr regions < bound := by
  have general : ∀ highest, highest < bound → regions.foldl
      (fun highest r => max highest (add64 r.base.toNat r.length.toNat)) highest < bound := by
    induction regions with
    | nil => exact fun highest below => below
    | cons r rest ih =>
      intro highest below
      exact ih (fun other mem => fits other (.tail _ mem)) _
        (Nat.max_lt.mpr ⟨below, fits r (.head _)⟩)
  exact general 0 pos

section

variable {memmap : Option (List BootMemRegion)} (fits : MemmapFits memmap)
include fits

theorem totalVirtualPages_bounds : 0 < totalVirtualPages memmap ∧ totalVirtualPages memmap < 2 ^ 52 := by
  cases memmap with
  | none => decide
  | some regions =>
    have below := highestPhysicalAddr_lt (by decide) (fits regions rfl)
    simp only [totalVirtualPages, pageSize]
    rw [add64_eq (by omega)]
    omega

theorem VirtualState.boot_sound {kernelVirtEnd : Nat} :
    ∃ nodes spare, Sound (initialPages kernelVirtEnd memmap) (boot kernelVirtEnd memmap) nodes spare := by
  obtain ⟨node, spare, layout, region⟩ := virtual_layout kernelVirtEnd memmap
  have one : [node].map (virtual kernelVirtEnd memmap).region = [initialPages kernelVirtEnd memmap] := by
    rw [List.map_singleton, region]
  have covers : ∀ page, Covered ([node].map (virtual kernelVirtEnd memmap).region) page ↔
      (initialPages kernelVirtEnd memmap).Has page := by
    intro page
    rw [one, covered_cons]
    simp only [covered_nil, or_false]
  refine ⟨[node], spare, ⟨layout, ?_, ?_, ?_, ?_⟩, ?_⟩
  · change Separated ([node].map (virtual kernelVirtEnd memmap).region)
    rw [one]
    exact separated_cons.mpr ⟨(totalVirtualPages_bounds fits).1, fun _ mem => (nomatch mem), separated_nil⟩
  · exact fun page _ mem => mem
  · rintro page (free | live)
    · exact (covers page).mp free
    · exact absurd live (Set.notMem_empty page)
  · exact fun _ page has => .inl ((covers page).mpr has)
  · exact fun page live => absurd live (Set.notMem_empty page)

end

section

variable {initial : Span} {state : VirtualState} {nodes spare : List VmaNode}

theorem VirtualState.Partitioned.stop_le (partitioned : Partitioned initial state nodes spare)
    (node : VmaNode) (mem : node ∈ nodes) : (state.pool.region node).stop ≤ initial.stop := by
  have pos := partitioned.separated.nonempty _ (List.mem_map_of_mem mem)
  have last := (partitioned.inside ((state.pool.region node).stop - 1) (.inl ⟨_, List.mem_map_of_mem mem, by
    simp only [Span.Has, Span.stop]
    omega⟩)).2
  omega

theorem VirtualState.Sound.alloc {count : Nat} (sound : Sound initial state nodes spare)
    (lt : initial.stop < 2 ^ 53) (addressable : state.Addressable count) :
    (virtualAllocPages state.pool count = some (0, state.pool)) ∨
    ∃ addr pool nodes' spare', virtualAllocPages state.pool count = some (addr, pool) ∧ addr ≠ 0 ∧
      (∀ page ∈ pageRange addr count, Covered (nodes.map state.pool.region) page ∧ page ∉ state.live) ∧
      Sound initial { state with pool := pool, live := state.live ∪ pageRange addr count } nodes' spare' := by
  by_cases pos : count = 0
  · left
    rw [virtualAllocPages, if_pos pos]
  have stops := sound.toPartitioned.stop_le
  rcases virtualAllocPages_cases sound.layout pos (fun node mem => by
    have := stops node mem
    omega) with ⟨refused, _⟩ | ⟨pre, node, after, pool, nodes', spare', eq, smaller, large, served, layout, regions⟩
  · exact .inl refused
  right
  have first : nodes.find? (fun node => count ≤ state.pool.count node) = some node := by
    rw [List.find?_eq_some_iff_append]
    exact ⟨by simpa using large, pre, after, eq, fun other mem => by simpa using smaller other mem⟩
  obtain ⟨above, below⟩ := addressable nodes node sound.layout.regions first
  have addr : mul64 (state.pool.startPage node) pageSize = state.pool.startPage node * pageSize := by
    apply mul64_eq
    simp only [pageSize]
    omega
  have range : ∀ page, page ∈ pageRange (state.pool.startPage node * pageSize) count ↔
      state.pool.startPage node ≤ page ∧ page < state.pool.startPage node + count := by
    intro page
    simp only [pageRange, Set.mem_ofPred_eq, Nat.mul_div_cancel _ (show 0 < pageSize by decide)]
  have split : nodes.map state.pool.region =
      pre.map state.pool.region ++ state.pool.region node :: after.map state.pool.region := by
    rw [eq, List.map_append, List.map_cons]
  have ht : ∀ page ∈ pageRange (state.pool.startPage node * pageSize) count,
      Covered (nodes.map state.pool.region) page := by
    intro page inRange
    rw [range] at inRange
    refine ⟨state.pool.region node, List.mem_map_of_mem (by rw [eq]; simp), inRange.1, ?_⟩
    simp only [VirtualPool.count, VirtualPool.startPage, Span.stop] at large inRange ⊢
    omega
  have separated := sound.separated
  rw [split] at separated
  obtain ⟨shorter, covers⟩ := separated.dropFront (Nat.pos_of_ne_zero pos) large
  rw [← regions] at shorter
  rw [← regions, ← split] at covers
  refine ⟨_, pool, nodes', spare', served, ?_, ?_, ⟨layout, shorter, ?_, ?_, ?_⟩, ?_⟩
  · rw [addr]
    exact Nat.mul_ne_zero (by omega) (by decide)
  · rw [addr]
    exact fun page inRange => ⟨ht page inRange, sound.apart page (ht page inRange)⟩
  all_goals simp only [addr]
  · rintro page free (live | inRange)
    · exact sound.apart page ((covers page).mp free).1 live
    · exact ((covers page).mp free).2 ((range page).mp inRange)
  · rintro page (free | live | inRange)
    · exact sound.inside page (.inl ((covers page).mp free).1)
    · exact sound.inside page (.inr live)
    · exact sound.inside page (.inl (ht page inRange))
  · intro kept page has
    rcases sound.whole kept page has with free | live
    · by_cases inRange : page ∈ pageRange (state.pool.startPage node * pageSize) count
      · exact .inr (.inr inRange)
      · exact .inl ((covers page).mpr ⟨free, fun hin => inRange ((range page).mpr hin)⟩)
    · exact .inr (.inl live)
  · rintro page (live | inRange)
    · exact sound.numbered page live
    · rw [range] at inRange
      omega

theorem VirtualState.Sound.free {addr count : Nat} (sound : Sound initial state nodes spare)
    (lt : initial.stop < 2 ^ 53) (owned : pageRange addr count ⊆ state.live) :
    ∃ pool logged nodes' spare', virtualFreePages state.pool addr count = some (pool, logged) ∧
      Sound initial ⟨pool, state.live \ pageRange addr count, state.dropped || logged⟩ nodes' spare' := by
  by_cases pos : count = 0
  · have empty : pageRange addr count = ∅ := by
      ext page
      simp only [pageRange, Set.mem_ofPred_eq, Set.mem_empty_iff_false, pos, iff_false]
      omega
    refine ⟨state.pool, false, nodes, spare, by rw [virtualFreePages, if_pos (.inr pos)], ?_⟩
    rw [empty, Set.sdiff_empty, Bool.or_false]
    exact sound
  have first := sound.numbered (addr / pageSize) (owned ⟨Nat.le_refl _, by omega⟩)
  have last := sound.numbered (addr / pageSize + (count - 1)) (owned ⟨by omega, by omega⟩)
  have named : addr ≠ 0 := by
    rintro rfl
    simp at first
  have stops := sound.toPartitioned.stop_le
  -- Pages that stay live are disjoint from the freed ones, so both outcomes keep `ne`.
  rcases virtualFreePages_cases sound.layout sound.separated named pos (fun node mem => by
    have := stops node mem
    omega) (by omega) with
    ⟨dropped, _⟩ | ⟨pre, after, pool, nodes', spare', split, below, above, freed, layout, regions⟩
  · refine ⟨state.pool, true, nodes, spare, dropped, ⟨sound.layout, sound.separated, ?_, ?_, ?_⟩, ?_⟩
    · exact fun page free live => sound.apart page free live.1
    · rintro page (free | live)
      · exact sound.inside page (.inl free)
      · exact sound.inside page (.inr live.1)
    · simp
    · exact fun page live => sound.numbered page live.1
  · have separated := sound.separated
    rw [split] at separated
    have out : ∀ page, (Span.mk (addr / pageSize) count).Has page → ¬ Covered (pre ++ after) page := by
      intro page inRange free
      rw [← split] at free
      exact sound.apart page free (owned inRange)
    obtain ⟨left, right⟩ := separated.placed (Nat.pos_of_ne_zero pos) out below above
    obtain ⟨joined, covers⟩ := separated.insertSpan (Nat.pos_of_ne_zero pos) left right
    rw [← regions] at joined
    rw [← regions, ← split] at covers
    refine ⟨pool, false, nodes', spare', freed, ⟨layout, joined, ?_, ?_, ?_⟩, ?_⟩
    · intro page free live
      rcases (covers page).mp free with inRange | free
      · exact live.2 inRange
      · exact sound.apart page free live.1
    · rintro page (free | live)
      · rcases (covers page).mp free with inRange | free
        · exact sound.inside page (.inr (owned inRange))
        · exact sound.inside page (.inl free)
      · exact sound.inside page (.inr live.1)
    · intro kept page has
      rw [Bool.or_false] at kept
      rcases sound.whole kept page has with free | live
      · exact .inl ((covers page).mpr (.inr free))
      · by_cases inRange : page ∈ pageRange addr count
        · exact .inl ((covers page).mpr (.inl inRange))
        · exact .inr ⟨live, inRange⟩
    · exact fun page live => sound.numbered page live.1

theorem VirtualState.Sound.next {op : VirtualOp} (sound : Sound initial state nodes spare)
    (lt : initial.stop < 2 ^ 53) (called : state.CalledAddressable op) :
    ∃ after nodes' spare', state.step op = some after ∧ Sound initial after nodes' spare' := by
  cases op with
  | alloc count =>
    rcases sound.alloc lt (called.2 count rfl) with
      refused | ⟨addr, pool, nodes', spare', served, named, _, sound⟩
    · exact ⟨state, nodes, spare, by simp [step, refused], sound⟩
    · exact ⟨_, nodes', spare', by simp [step, served, named], sound⟩
  | free addr count =>
    obtain ⟨pool, logged, nodes', spare', freed, sound⟩ := sound.free lt called.1
    exact ⟨_, nodes', spare', by simp [step, freed], sound⟩

end

theorem initialPages_stop_lt (kernelVirtEnd : Nat) {memmap : Option (List BootMemRegion)}
    (fits : MemmapFits memmap) : (initialPages kernelVirtEnd memmap).stop < 2 ^ 53 := by
  have base := poolBase_page_lt kernelVirtEnd
  have total := (totalVirtualPages_bounds fits).2
  simp only [initialPages, Span.stop]
  omega

/-- In every run whose served requests have addresses, the free regions and the
live pages partition the pool, every operation returns, and a served request is
free and not live before it is handed out. -/
theorem virtual_pool_partitioned (kernelVirtEnd : UInt64) (memmap : Option (List BootMemRegion))
    (fits : MemmapFits memmap) (state : VirtualState)
    (reached : Reaches VirtualState.step VirtualState.CalledAddressable
      (VirtualState.boot kernelVirtEnd.toNat memmap) state) :
    ∃ nodes spare,
      VirtualState.Partitioned (initialPages kernelVirtEnd.toNat memmap) state nodes spare ∧
      (∀ op, state.CalledAddressable op → ∃ after, state.step op = some after) ∧
      ∀ (count : UInt64) (addr : Nat) (pool : VirtualPool), state.Addressable count.toNat →
        virtualAllocPages state.pool count.toNat = some (addr, pool) → addr ≠ 0 →
        ∀ page ∈ pageRange addr count.toNat,
          Covered (nodes.map state.pool.region) page ∧ page ∉ state.live := by
  have lt := initialPages_stop_lt kernelVirtEnd.toNat fits
  obtain ⟨nodes, spare, sound⟩ := reached.invariant
    (fun state => ∃ nodes spare,
      VirtualState.Sound (initialPages kernelVirtEnd.toNat memmap) state nodes spare)
    (VirtualState.boot_sound fits) fun pre op after sound called ht => by
    obtain ⟨nodes, spare, sound⟩ := sound
    obtain ⟨next, nodes', spare', hs, sound⟩ := sound.next lt called
    rw [hs] at ht
    exact ⟨nodes', spare', Option.some.inj ht ▸ sound⟩
  refine ⟨nodes, spare, sound.toPartitioned, fun op called => ?_, fun count addr pool addressable served named => ?_⟩
  · obtain ⟨after, _, _, hs, _⟩ := sound.next lt called
    exact ⟨after, hs⟩
  · rcases sound.alloc lt addressable with refused | ⟨addr', pool', _, _, served', _, ht, _⟩
    · grind
    · rw [served'] at served
      cases served
      exact ht

/-- A boot memory map with one region of RAM below 512 MB. -/
def smallMemmap : Option (List BootMemRegion) := some [⟨0x100000, 0x1FF00000⟩]

theorem smallMemmap_fits : MemmapFits smallMemmap := by
  intro regions eq r mem
  cases eq
  rw [List.mem_singleton.mp mem]
  decide

/-- With the kernel image ending at `0xffffffff80400000`, the pool starts 523264
pages below the end of the address space and is longer than that. -/
theorem initialPages_small :
    initialPages (0xffffffff80400000 : UInt64).toNat smallMemmap = ⟨2 ^ 52 - 523264, 1179648⟩ := by
  decide

theorem addressable_small :
    (VirtualState.boot (0xffffffff80400000 : UInt64).toNat smallMemmap).Addressable (1 : UInt64).toNat := by
  obtain ⟨node, spare, layout, region⟩ := virtual_layout (0xffffffff80400000 : UInt64).toNat smallMemmap
  intro nodes first chain hf
  obtain rfl := chain.unique layout.regions
  rw [List.mem_singleton.mp (List.mem_of_find?_eq_some hf)]
  simp only [VirtualState.boot, VirtualPool.startPage, region]
  decide

theorem step_alloc_single (state : VirtualState) {node : VmaNode} {spare : List VmaNode} {start len : Nat}
    (layout : Layout state.pool [node] spare) (region : state.pool.region node = ⟨start, len⟩)
    (bounded : start + len < 2 ^ 64) (count : UInt64) (pos : count.toNat ≠ 0) (less : count.toNat < len) :
    ∃ pool node' spare', state.step (.alloc count) = some { state with
        pool := pool
        live := if mul64 start pageSize = 0 then state.live
          else state.live ∪ pageRange (mul64 start pageSize) count.toNat } ∧
      Layout pool [node'] spare' ∧ pool.region node' = ⟨start + count.toNat, len - count.toNat⟩ := by
  have only : ∀ other ∈ [node], other = node := fun other mem => List.mem_singleton.mp mem
  rcases virtualAllocPages_cases layout pos (fun other mem => by
      rw [only other mem, region]
      exact bounded) with
    ⟨_, smaller⟩ | ⟨pre, first, after, pool, nodes', spare', eq, _, _, served, layout', regions⟩
  · have := smaller node (.head _)
    simp only [VirtualPool.count, region] at this
    omega
  · have isNode : first = node := only first (by rw [eq]; simp)
    have lengths : 1 = pre.length + (after.length + 1) := by
      simpa using congrArg List.length eq
    have noBefore : pre = [] := List.length_eq_zero_iff.mp (by omega)
    have noAfter : after = [] := List.length_eq_zero_iff.mp (by omega)
    rw [isNode, noBefore, noAfter, dropFront, region, if_neg (show len ≠ count.toNat by omega)] at regions
    simp only [VirtualPool.startPage, isNode, region] at served
    obtain ⟨node', rfl, region'⟩ := List.map_eq_singleton_iff.mp regions
    exact ⟨pool, node', spare', by simp only [VirtualState.step, served], layout', region'⟩

theorem virtual_pool_partitioned_after_alloc :
    ∃ state, Reaches VirtualState.step VirtualState.CalledAddressable
        (VirtualState.boot (0xffffffff80400000 : UInt64).toNat smallMemmap) state ∧ state.live.Nonempty ∧
      ∃ nodes spare, VirtualState.Partitioned
        (initialPages (0xffffffff80400000 : UInt64).toNat smallMemmap) state nodes spare := by
  obtain ⟨node, spare, layout, region⟩ := virtual_layout (0xffffffff80400000 : UInt64).toNat smallMemmap
  obtain ⟨pool, node', spare', hs, _⟩ := step_alloc_single
    (VirtualState.boot (0xffffffff80400000 : UInt64).toNat smallMemmap) layout region (by decide) 1
    (by decide) (by decide)
  have hr : Reaches VirtualState.step VirtualState.CalledAddressable _ _ := .next (.alloc 1) .start
    ⟨trivial, fun count eq => VirtualOp.alloc.inj eq ▸ addressable_small⟩ hs
  refine ⟨_, hr, ?_, ?_⟩
  · refine ⟨2 ^ 52 - 523264, ?_⟩
    rw [if_neg (by decide)]
    exact .inr (by constructor <;> decide)
  · obtain ⟨nodes, spare, partitioned, _⟩ := virtual_pool_partitioned _ _ smallMemmap_fits _ hr
    exact ⟨nodes, spare, partitioned⟩

/-- Two requests reach the page whose address wraps to null: the caller sees a
failed request, but the page has left the free list. -/
theorem page_lost_at_address_zero :
    ¬ ∀ (kernelVirtEnd : UInt64) (memmap : Option (List BootMemRegion)) (state : VirtualState),
      MemmapFits memmap →
      Reaches VirtualState.step VirtualState.Called (VirtualState.boot kernelVirtEnd.toNat memmap) state →
      ∃ nodes spare, VirtualState.Partitioned (initialPages kernelVirtEnd.toNat memmap) state nodes spare := by
  intro claimed
  obtain ⟨node, spare, layout, region⟩ := virtual_layout (0xffffffff80400000 : UInt64).toNat smallMemmap
  obtain ⟨pool, node', spare', hs, layout', region'⟩ := step_alloc_single
    (VirtualState.boot (0xffffffff80400000 : UInt64).toNat smallMemmap) layout region (by decide) 523264
    (by decide) (by decide)
  obtain ⟨pool'', node'', spare'', stepped', layout'', region''⟩ := step_alloc_single
    ⟨pool, _, false⟩ layout' region' (by decide) 1 (by decide) (by decide)
  have hr : Reaches VirtualState.step VirtualState.Called _ _ :=
    .next (.alloc 1) (.next (.alloc 523264) .start trivial hs) trivial stepped'
  obtain ⟨nodes, spares, partitioned⟩ := claimed _ _ _ smallMemmap_fits hr
  obtain rfl := partitioned.layout.regions.unique layout''.regions
  have lost := partitioned.whole rfl (2 ^ 52) (by rw [initialPages_small]; constructor <;> decide)
  rcases lost with ⟨span, mem, has⟩ | live | live
  · rw [List.mem_singleton.mp mem, region''] at has
    exact absurd has.1 (by decide)
  · exact live
  · exact absurd live.2 (by decide)

end RosKernel.Memory
