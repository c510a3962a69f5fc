import Mathlib.Data.List.FinRange
import RosKernel.Library.Linked
import RosKernel.Library.Spans
import RosKernel.Memory.Word

/-! The kernel virtual-page allocator (`virtualalloc.cpp`).

Regions live in a fixed pool of nodes, each on one of two chains: the free regions,
kept sorted by their first page, and the spare nodes. A loop that does not end
within the pool's size has met a cycle, and the operation has no result.
-/

set_option autoImplicit false

namespace RosKernel.Memory

open Library List
open Function (update update_of_ne update_self)

@[irreducible] def maxVmaNodes : Nat := 4096

theorem maxVmaNodes_pos : 0 < maxVmaNodes := by
  unfold maxVmaNodes
  decide

abbrev VmaNode := Fin maxVmaNodes

/-- `region` holds the `StartPage` and `Count` of each node. -/
structure VirtualPool where
  region : VmaNode → Span
  next : VmaNode → Option VmaNode
  freeNodesList : Option VmaNode
  freeVmaList : Option VmaNode

structure BootMemRegion where
  base : UInt64
  length : UInt64
  deriving DecidableEq, Repr

namespace VirtualPool

section

variable (pool : VirtualPool)
include pool

def startPage (node : VmaNode) : Nat := (pool.region node).start

def count (node : VmaNode) : Nat := (pool.region node).len

def allocNode : Option (VmaNode × VirtualPool) :=
  match pool.freeNodesList with
  | none => none
  | some node => some (node, { pool with
      freeNodesList := pool.next node
      next := update pool.next node none })

def freeNode (node : VmaNode) : VirtualPool := { pool with
  next := update pool.next node pool.freeNodesList
  freeNodesList := some node }

end

/-- `if (prev) prev->Next = target; else free_vma_list = target;` -/
def relink (pool : VirtualPool) (prev target : Option VmaNode) : VirtualPool := { pool with
  next := relinkNext pool.next prev target
  freeVmaList := relinkHead pool.freeVmaList prev target }

end VirtualPool

/-- `g_pool_base`: the end of the kernel image, rounded up to two megabytes. -/
def poolBase (kernelVirtEnd : Nat) : Nat := add64 kernelVirtEnd (0x200000 - 1) &&& 0xFFFFFFFFFFE00000

def highestPhysicalAddr (regions : List BootMemRegion) : Nat :=
  regions.foldl (fun highest r => max highest (add64 r.base.toNat r.length.toNat)) 0

def totalVirtualPages : Option (List BootMemRegion) → Nat
  | none => 65536
  | some regions => add64 (highestPhysicalAddr regions) 0x100000000 / pageSize

/-- The node pool of `Virtual` before its first region: every node is spare. -/
def sparePool : VirtualPool where
  region _ := ⟨0, 0⟩
  next node := if more : node.val + 1 < maxVmaNodes then some ⟨node.val + 1, more⟩ else none
  freeNodesList := some ⟨0, maxVmaNodes_pos⟩
  freeVmaList := none

/-- `PageAlloc::Virtual`; its `AllocNode` never fails, since the pool was just filled. -/
def virtual (kernelVirtEnd : Nat) (memmap : Option (List BootMemRegion)) : VirtualPool :=
  match sparePool.allocNode with
  | none => sparePool
  | some (node, pool) => { pool with
      freeVmaList := some node
      region := update pool.region node ⟨poolBase kernelVirtEnd / pageSize, totalVirtualPages memmap⟩ }

def virtualAllocPages (pool : VirtualPool) (count : Nat) : Option (Nat × VirtualPool) :=
  if count = 0 then some (0, pool)
  else
    match seek pool.next (fun node => count ≤ pool.count node) maxVmaNodes none pool.freeVmaList with
    | none => none
    | some (_, none) => some (0, pool)
    | some (prev, some curr) =>
      let addr := mul64 (pool.startPage curr) pageSize
      if pool.count curr = count then some (addr, (pool.relink prev (pool.next curr)).freeNode curr)
      else some (addr, { pool with
        region := update pool.region curr
          ⟨add64 (pool.startPage curr) count, sub64 (pool.count curr) count⟩ })

namespace VirtualPool

section

variable (pool : VirtualPool)
include pool

/-- Join `node` to the region behind it when they touch, and recycle that node. -/
def absorbRight (node : VmaNode) : Option VmaNode → VirtualPool
  | none => pool
  | some curr =>
    if add64 (pool.startPage node) (pool.count node) = pool.startPage curr then
      freeNode { pool with
        region := update pool.region node
          ⟨pool.startPage node, add64 (pool.count node) (pool.count curr)⟩
        next := update pool.next node (pool.next curr) } curr
    else pool

/-- A region of its own between `prev` and `curr`. -/
def placeNode (node : VmaNode) (startPage count : Nat) (prev curr : Option VmaNode) : VirtualPool :=
  relink { pool with
    region := update pool.region node ⟨startPage, count⟩
    next := update pool.next node curr } prev (some node)

/-- The flag says that the node pool was exhausted, which is logged and drops the range. -/
def insertNew (startPage count : Nat) (prev curr : Option VmaNode) : VirtualPool × Bool :=
  match pool.allocNode with
  | none => (pool, true)
  | some (node, pool) => ((pool.placeNode node startPage count prev curr).absorbRight node curr, false)

/-- The free path once the neighbours are known. -/
def insertRegion (startPage count : Nat) (prev curr : Option VmaNode) : VirtualPool × Bool :=
  match prev with
  | none => pool.insertNew startPage count prev curr
  | some left =>
    if add64 (pool.startPage left) (pool.count left) = startPage then
      (absorbRight { pool with
        region := update pool.region left
          ⟨pool.startPage left, add64 (pool.count left) count⟩ } left curr, false)
    else pool.insertNew startPage count prev curr

end

end VirtualPool

def virtualFreePages (pool : VirtualPool) (addr count : Nat) : Option (VirtualPool × Bool) :=
  if addr = 0 ∨ count = 0 then some (pool, false)
  else
    let startPage := addr / pageSize
    match seek pool.next (fun node => startPage ≤ pool.startPage node) maxVmaNodes none pool.freeVmaList with
    | none => none
    | some (prev, curr) => some (pool.insertRegion startPage count prev curr)

section

/-- `nodes` are the free regions in list order and `spare` the unused nodes; each
node of the pool is on exactly one of the two chains. -/
structure Layout (pool : VirtualPool) (nodes spare : List VmaNode) : Prop where
  regions : Chain pool.next pool.freeVmaList nodes
  spares : Chain pool.next pool.freeNodesList spare
  whole : (nodes ++ spare).Perm (List.finRange maxVmaNodes)

variable {pool : VirtualPool} {nodes before after spare : List VmaNode} {node : VmaNode}

theorem Layout.nodup (layout : Layout pool nodes spare) : (nodes ++ spare).Nodup :=
  layout.whole.nodup_iff.mpr (nodup_finRange _)

theorem Layout.length_le (layout : Layout pool nodes spare) : nodes.length ≤ maxVmaNodes := by
  have total := layout.whole.length_eq
  rw [length_append, length_finRange] at total
  omega

theorem Layout.unlink (layout : Layout pool (before ++ node :: after) spare) :
    Layout ((pool.relink before.getLast? (pool.next node)).freeNode node) (before ++ after) (node :: spare) := by
  have nodup := layout.nodup
  rw [nodup_append, nodup_append, nodup_cons] at nodup
  obtain ⟨⟨beforeNodup, ⟨notAfter, afterNodup⟩, beforeApart⟩, spareNodup, ne⟩ := nodup
  have notBefore : node ∉ before := fun mem => beforeApart node mem node (.head _) rfl
  have notSpare : node ∉ spare := fun mem =>
    ne node (mem_append_right _ (.head _)) node mem rfl
  have last : ∀ other, before.getLast? = some other → other ∉ spare := fun other isLast mem =>
    ne other (mem_append_left _ (mem_of_getLast? isLast)) other mem rfl
  have tail : Chain pool.next (pool.next node) after := by
    rw [layout.regions.next_eq]
    rw [← singleton_append, ← append_assoc] at layout
    exact layout.regions.suffix
  refine ⟨?_, ⟨rfl, ?_⟩, ?_⟩
  · have linked := layout.regions.relink beforeNodup tail fun other mem otherAfter =>
      beforeApart other mem other (.tail _ otherAfter) rfl
    refine linked.congr fun other mem => update_of_ne ?_ _ _
    rintro rfl
    rcases mem_append.mp mem with mem | mem
    · exact notBefore mem
    · exact notAfter mem
  · simp only [VirtualPool.freeNode, VirtualPool.relink, update_self]
    refine layout.spares.congr fun other mem => ?_
    have ne : other ≠ node := by
      rintro rfl
      exact notSpare mem
    rw [update_of_ne ne]
    exact relinkNext_of_ne fun eq => last other eq mem
  · refine List.Perm.trans ?_ layout.whole
    rw [append_assoc, append_assoc, perm_append_left_iff]
    exact perm_middle

theorem Layout.absent (layout : Layout pool (before ++ node :: after) spare) :
    node ∉ before ∧ node ∉ after := by
  have nodup := (nodup_append.mp layout.nodup).1
  rw [nodup_append, nodup_cons] at nodup
  exact ⟨fun mem => nodup.2.2 node mem node (.head _) rfl, nodup.2.1.1⟩

theorem map_update_of_notMem {region : VmaNode → Span} {others : List VmaNode} (absent : node ∉ others)
    (span : Span) : others.map (update region node span) = others.map region := by
  refine map_congr_left fun other mem => update_of_ne ?_ _ _
  rintro rfl
  exact absent mem

theorem Layout.absorbRight (layout : Layout pool (before ++ node :: after) spare)
    (fits : ∀ other ∈ after, pool.count node + (pool.region other).stop < 2 ^ 64)
    (stops : (pool.region node).stop < 2 ^ 64) :
    ∃ nodes' spare', Layout (pool.absorbRight node after.head?) nodes' spare' ∧
      nodes'.map (pool.absorbRight node after.head?).region =
        before.map pool.region ++ joinRight (pool.region node) (after.map pool.region) := by
  cases after with
  | nil => exact ⟨_, spare, layout, by simp [joinRight, VirtualPool.absorbRight]⟩
  | cons curr rest =>
    have sum : add64 (pool.startPage node) (pool.count node) = (pool.region node).stop := add64_eq stops
    simp only [head?_cons, VirtualPool.absorbRight, sum, map_cons, joinRight]
    by_cases touch : (pool.region node).stop = pool.startPage curr
    · rw [if_pos touch, if_pos (show (pool.region node).stop = (pool.region curr).start from touch)]
      obtain ⟨notBefore, notAfter⟩ := layout.absent
      rw [mem_cons, not_or] at notAfter
      have count : add64 (pool.count node) (pool.count curr) = pool.count node + pool.count curr := by
        have := fits curr (.head _)
        apply add64_eq
        simp only [VirtualPool.count, Span.stop] at this ⊢
        omega
      have shifted : Layout pool ((before ++ [node]) ++ curr :: rest) spare := by
        rwa [append_assoc, singleton_append]
      have unlinked := shifted.unlink
      rw [getLast?_concat] at unlinked
      refine ⟨(before ++ [node]) ++ rest, curr :: spare,
        ⟨unlinked.regions, unlinked.spares, unlinked.whole⟩, ?_⟩
      simp only [VirtualPool.freeNode, map_append, map_cons, update_self,
        map_update_of_notMem notBefore, map_update_of_notMem notAfter.2, append_assoc,
        singleton_append, count]
      rfl
    · rw [if_neg touch, if_neg (show (pool.region node).stop ≠ (pool.region curr).start from touch)]
      exact ⟨_, spare, layout, by simp⟩

theorem Layout.allocNode (layout : Layout pool nodes (node :: spare)) :
    pool.allocNode = some (node, { pool with
      freeNodesList := pool.next node
      next := update pool.next node none }) := by
  unfold VirtualPool.allocNode
  rw [layout.spares.1]

theorem Layout.placeNode (layout : Layout pool (before ++ after) (node :: spare)) (startPage count : Nat) :
    Layout (VirtualPool.placeNode { pool with
        freeNodesList := pool.next node
        next := update pool.next node none } node startPage count before.getLast? after.head?)
      (before ++ node :: after) spare := by
  have nodup := layout.nodup
  rw [nodup_append, nodup_append, nodup_cons] at nodup
  obtain ⟨⟨beforeNodup, afterNodup, beforeApart⟩, ⟨notSpare, spareNodup⟩, ne⟩ := nodup
  have absent : node ∉ before ++ after := fun mem => ne node mem node (.head _) rfl
  simp only [VirtualPool.placeNode, VirtualPool.relink, Function.update_idem]
  -- The new node already leads on to `after`; what is left is the link to it.
  have ready : Chain (update pool.next node after.head?) pool.freeVmaList (before ++ after) := by
    refine layout.regions.congr fun other mem => update_of_ne ?_ _ _
    rintro rfl
    exact absent mem
  refine ⟨?_, ?_, ?_⟩
  · refine ready.relink beforeNodup ⟨rfl, ?_⟩ fun other mem => ?_
    · rw [update_self]
      exact ready.suffix
    · rw [mem_cons, not_or]
      constructor
      · rintro rfl
        exact absent (mem_append_left _ mem)
      · grind
  · refine layout.spares.2.congr fun other mem => ?_
    have otherNode : other ≠ node := by
      rintro rfl
      exact notSpare mem
    refine (relinkNext_of_ne fun eq => ?_).trans (update_of_ne otherNode _ _)
    exact ne other (mem_append_left _ (mem_of_getLast? eq)) other
      (.tail _ mem) rfl
  · refine List.Perm.trans ?_ layout.whole
    rw [append_assoc, append_assoc, perm_append_left_iff]
    exact perm_middle.symm

/-- First fit: the first region that is large enough loses its front, or nothing
changes because none is. -/
theorem virtualAllocPages_cases {count : Nat} (layout : Layout pool nodes spare) (pos : count ≠ 0)
    (bounded : ∀ node ∈ nodes, (pool.region node).stop < 2 ^ 64) :
    (virtualAllocPages pool count = some (0, pool) ∧ ∀ node ∈ nodes, pool.count node < count) ∨
    ∃ before node after pool' nodes' spare', nodes = before ++ node :: after ∧
      (∀ other ∈ before, pool.count other < count) ∧ count ≤ pool.count node ∧
      virtualAllocPages pool count = some (mul64 (pool.startPage node) pageSize, pool') ∧
      Layout pool' nodes' spare' ∧ nodes'.map pool'.region =
        before.map pool.region ++ (dropFront (pool.region node) count ++ after.map pool.region) := by
  unfold virtualAllocPages
  rw [if_neg pos]
  cases hf : nodes.find? fun node => count ≤ pool.count node with
  | none =>
    rw [find?_eq_none] at hf
    left
    have none_ := layout.regions
    rw [← append_nil nodes] at none_
    rw [seek_eq none none_ (fun node mem => by simpa using hf node mem)
      (fun node eq => nomatch eq) layout.length_le]
    exact ⟨rfl, fun node mem => by simpa using hf node mem⟩
  | some node =>
    obtain ⟨large, before, after, rfl, lt⟩ := find?_eq_some_iff_append.mp hf
    have large : count ≤ pool.count node := by simpa using large
    have lt : ∀ other ∈ before, pool.count other < count := fun other mem => by
      simpa using lt other mem
    have length : before.length ≤ maxVmaNodes := by
      have := layout.length_le
      rw [length_append] at this
      omega
    right
    rw [seek_eq none layout.regions (fun other mem => by simpa using lt other mem)
      (fun other eq => by simpa [← Option.some.inj eq] using large) length]
    simp only [Option.or_none, head?_cons]
    obtain ⟨notBefore, notAfter⟩ := layout.absent
    by_cases whole : pool.count node = count
    · rw [if_pos whole]
      refine ⟨before, node, after, _, _, _, rfl, lt, large, rfl, layout.unlink, ?_⟩
      change (pool.region node).len = count at whole
      rw [dropFront, if_pos whole, nil_append, map_append]
      rfl
    · rw [if_neg whole]
      refine ⟨before, node, after, _, before ++ node :: after, spare, rfl, lt, large, rfl,
        ⟨layout.regions, layout.spares, layout.whole⟩, ?_⟩
      have stop := bounded node (mem_append_right _ (.head _))
      simp only [VirtualPool.count, VirtualPool.startPage, Span.stop] at stop large whole ⊢
      rw [add64_eq (by omega), sub64_eq (by omega) (by omega), dropFront, if_neg whole]
      simp only [map_append, map_cons, update_self, map_update_of_notMem notBefore,
        map_update_of_notMem notAfter]
      rfl

section

variable {startPage count : Nat}

section

variable (layout : Layout pool (before ++ after) spare)
  (fits : ∀ node ∈ before ++ after, count + (pool.region node).stop < 2 ^ 62) (stops : startPage + count < 2 ^ 62)
include layout fits stops

theorem Layout.insertNew : (pool.insertNew startPage count before.getLast? after.head? = (pool, true) ∧ spare = []) ∨
    ∃ pool' nodes' spare', pool.insertNew startPage count before.getLast? after.head? = (pool', false) ∧
      Layout pool' nodes' spare' ∧ nodes'.map pool'.region =
        before.map pool.region ++ joinRight ⟨startPage, count⟩ (after.map pool.region) := by
  unfold VirtualPool.insertNew
  cases spare with
  | nil =>
    left
    unfold VirtualPool.allocNode
    rw [layout.spares.head_eq]
    exact ⟨rfl, rfl⟩
  | cons node spare =>
    right
    rw [layout.allocNode]
    have placed := layout.placeNode startPage count
    obtain ⟨notBefore, notAfter⟩ := placed.absent
    obtain ⟨nodes', spare', joined, regions⟩ := placed.absorbRight
      (fun other mem => by
        have ne : other ≠ node := by
          rintro rfl
          exact notAfter mem
        have := fits other (mem_append_right _ mem)
        simp only [VirtualPool.count, VirtualPool.placeNode, VirtualPool.relink, update_self,
          update_of_ne ne]
        omega)
      (by
        simp only [VirtualPool.placeNode, VirtualPool.relink, update_self, Span.stop]
        omega)
    refine ⟨_, nodes', spare', rfl, joined, regions.trans ?_⟩
    simp only [VirtualPool.placeNode, VirtualPool.relink, update_self,
      map_update_of_notMem notBefore, map_update_of_notMem notAfter]

/-- A freed range goes between the regions that start before it and the others,
joined to those it touches; without a spare node it may be dropped. -/
theorem Layout.insertRegion : (pool.insertRegion startPage count before.getLast? after.head? = (pool, true) ∧ spare = []) ∨
    ∃ pool' nodes' spare', pool.insertRegion startPage count before.getLast? after.head? = (pool', false) ∧
      Layout pool' nodes' spare' ∧ nodes'.map pool'.region =
        insertSpan (before.map pool.region) ⟨startPage, count⟩ (after.map pool.region) := by
  unfold VirtualPool.insertRegion insertSpan
  rw [getLast?_map]
  cases nearest : before.getLast? with
  | none =>
    have empty : before = [] := getLast?_eq_none_iff.mp nearest
    have ins := layout.insertNew fits stops
    rw [nearest, empty] at ins
    simpa using ins
  | some left =>
    obtain ⟨init, rfl⟩ : ∃ init, before = init ++ [left] :=
      ⟨before.dropLast, (dropLast_append_getLast? _ nearest).symm⟩
    have leftFits := fits left (by simp)
    have sum : add64 (pool.startPage left) (pool.count left) = (pool.region left).stop :=
      add64_eq (show (pool.region left).stop < 2 ^ 64 by omega)
    simp only [sum, Option.map_some]
    by_cases touch : (pool.region left).stop = startPage
    · rw [if_pos touch, if_pos touch]
      have grown : add64 (pool.count left) count = pool.count left + count := by
        apply add64_eq
        simp only [Span.stop, VirtualPool.count] at leftFits ⊢
        omega
      rw [grown]
      right
      have wide : Layout { pool with
          region := update pool.region left ⟨pool.startPage left, pool.count left + count⟩ }
          (init ++ left :: after) spare := by
        rw [append_assoc, singleton_append] at layout
        exact ⟨layout.regions, layout.spares, layout.whole⟩
      obtain ⟨notBefore, notAfter⟩ := wide.absent
      obtain ⟨nodes', spare', joined, regions⟩ := wide.absorbRight
        (fun other mem => by
          have ne : other ≠ left := by
            rintro rfl
            exact notAfter mem
          have := fits other (mem_append_right _ mem)
          simp only [VirtualPool.count, update_self, update_of_ne ne,
            Span.stop] at this leftFits ⊢
          omega)
        (by
          simp only [update_self, Span.stop, VirtualPool.count, VirtualPool.startPage] at leftFits ⊢
          omega)
      refine ⟨_, nodes', spare', rfl, joined, regions.trans ?_⟩
      simp only [update_self, map_update_of_notMem notBefore, map_update_of_notMem notAfter,
        map_append, map_cons, map_nil, dropLast_concat]
      rfl
    · rw [if_neg touch, if_neg touch]
      have ins := layout.insertNew fits stops
      rwa [nearest] at ins

end

end

theorem virtualFreePages_cases {addr count : Nat} (layout : Layout pool nodes spare)
    (separated : Separated (nodes.map pool.region)) (named : addr ≠ 0) (pos : count ≠ 0)
    (fits : ∀ node ∈ nodes, count + (pool.region node).stop < 2 ^ 62)
    (stops : addr / pageSize + count < 2 ^ 62) :
    (virtualFreePages pool addr count = some (pool, true) ∧ spare = []) ∨
    ∃ before after pool' nodes' spare', nodes.map pool.region = before ++ after ∧
      (∀ left ∈ before, left.start < addr / pageSize) ∧ (∀ right ∈ after, addr / pageSize ≤ right.start) ∧
      virtualFreePages pool addr count = some (pool', false) ∧ Layout pool' nodes' spare' ∧
      nodes'.map pool'.region = insertSpan before ⟨addr / pageSize, count⟩ after := by
  unfold virtualFreePages
  rw [if_neg (not_or.mpr ⟨named, pos⟩)]
  obtain ⟨before, after, rfl, below, above⟩ := separated.exists_split (addr / pageSize)
  have halt : ∀ node, after.head? = some node → addr / pageSize ≤ pool.startPage node := fun node first =>
    above node (mem_of_mem_head? first)
  have length : before.length ≤ maxVmaNodes := by
    have := layout.length_le
    rw [length_append] at this
    omega
  have sought : seek pool.next (fun node => addr / pageSize ≤ pool.startPage node) maxVmaNodes none
      pool.freeVmaList = some (before.getLast?.or none, after.head?) :=
    seek_eq none layout.regions (fun node mem =>
        decide_eq_false (Nat.not_le_of_lt (below node mem)))
      (fun node first => by simpa using halt node first) length
  simp only [sought, Option.or_none]
  rcases layout.insertRegion fits stops with ⟨dropped, exhausted⟩ | ⟨pool', nodes', spare', ins, rest⟩
  · left
    rw [dropped]
    exact ⟨rfl, exhausted⟩
  · right
    rw [ins]
    refine ⟨before.map pool.region, after.map pool.region, pool', nodes', spare', map_append, ?_, ?_, rfl, rest⟩
    · exact forall_mem_map.mpr below
    · exact forall_mem_map.mpr above

/-! ### Any address

The two chains stay in order whatever address is freed, also one that the pool never held. -/

theorem Layout.absorbRight_any (layout : Layout pool (before ++ node :: after) spare) :
    ∃ nodes' spare', Layout (pool.absorbRight node after.head?) nodes' spare' := by
  cases after with
  | nil => exact ⟨_, spare, layout⟩
  | cons curr rest =>
    simp only [head?_cons, VirtualPool.absorbRight]
    split
    · have shifted : Layout pool ((before ++ [node]) ++ curr :: rest) spare := by
        rwa [append_assoc, singleton_append]
      have unlinked := shifted.unlink
      rw [getLast?_concat] at unlinked
      exact ⟨(before ++ [node]) ++ rest, curr :: spare, unlinked.regions, unlinked.spares, unlinked.whole⟩
    · exact ⟨_, spare, layout⟩

theorem Layout.insertNew_any (layout : Layout pool (before ++ after) spare) (startPage count : Nat) :
    ∃ nodes' spare', Layout (pool.insertNew startPage count before.getLast? after.head?).1 nodes' spare' := by
  unfold VirtualPool.insertNew
  cases spare with
  | nil =>
    unfold VirtualPool.allocNode
    rw [layout.spares.head_eq]
    exact ⟨_, [], layout⟩
  | cons node spare =>
    rw [layout.allocNode]
    exact (layout.placeNode startPage count).absorbRight_any

theorem Layout.insertRegion_any (layout : Layout pool (before ++ after) spare) (startPage count : Nat) :
    ∃ nodes' spare', Layout (pool.insertRegion startPage count before.getLast? after.head?).1 nodes' spare' := by
  unfold VirtualPool.insertRegion
  cases nearest : before.getLast? with
  | none =>
    have ins := layout.insertNew_any startPage count
    rwa [nearest] at ins
  | some left =>
    simp only
    split
    · obtain ⟨init, rfl⟩ : ∃ init, before = init ++ [left] :=
        ⟨before.dropLast, (dropLast_append_getLast? _ nearest).symm⟩
      rw [append_assoc, singleton_append] at layout
      have wide : Layout { pool with
          region := update pool.region left ⟨pool.startPage left, add64 (pool.count left) count⟩ }
          (init ++ left :: after) spare := ⟨layout.regions, layout.spares, layout.whole⟩
      exact wide.absorbRight_any
    · have ins := layout.insertNew_any startPage count
      rwa [nearest] at ins

theorem virtualFreePages_any (layout : Layout pool nodes spare) (addr count : Nat) :
    ∃ pool' logged nodes' spare', virtualFreePages pool addr count = some (pool', logged) ∧
      Layout pool' nodes' spare' := by
  unfold virtualFreePages
  split
  · exact ⟨pool, false, nodes, spare, rfl, layout⟩
  · obtain ⟨before, after, rfl, pass, halt⟩ :=
      exists_halt (fun node => decide (addr / pageSize ≤ pool.startPage node)) nodes
    have length : before.length ≤ maxVmaNodes := by
      have := layout.length_le
      rw [length_append] at this
      omega
    simp only [seek_eq none layout.regions pass halt length, Option.or_none]
    obtain ⟨nodes', spare', ins⟩ := layout.insertRegion_any (addr / pageSize) count
    exact ⟨_, _, nodes', spare', rfl, ins⟩

end

end RosKernel.Memory
