import Mathlib.Order.Interval.Finset.Nat
import RosKernel.Memory.DmaIntegrity

/-! Runs of the DMA allocator: its bitmap, its free pages and the guards of its buffers. -/

set_option autoImplicit false

namespace RosKernel.Memory

open Library

namespace DMAAlloc

def heldPages (live : List DMABuffer) : Finset Nat :=
  live.foldr (fun b held => (if b.InPool then Finset.Ico b.firstIndex (b.firstIndex + b.totalPages) else ∅) ∪ held) ∅

section

variable {alloc : DMAAlloc} {live : List DMABuffer}

theorem mem_heldPages (live : List DMABuffer) (page : Nat) : page ∈ heldPages live ↔ ∃ b ∈ live, b.Holds page := by
  induction live with
  | nil => simp [heldPages]
  | cons b live ih =>
    have rest : heldPages (b :: live) =
        (if b.InPool then Finset.Ico b.firstIndex (b.firstIndex + b.totalPages) else ∅) ∪ heldPages live := rfl
    rw [rest, Finset.mem_union, ih, List.exists_mem_cons_iff]
    refine or_congr_left ?_
    unfold DMABuffer.Holds
    split
    case isTrue inPool => simp [inPool]
    case isFalse out => simp [out]

theorem card_heldPages (ne : live.Pairwise fun b c => ∀ page, ¬ (b.Holds page ∧ c.Holds page)) :
    (heldPages live).card = ((live.filter fun b => decide b.InPool).map DMABuffer.totalPages).sum := by
  induction live with
  | nil => rfl
  | cons b live ih =>
    obtain ⟨first, others⟩ := List.pairwise_cons.mp ne
    have rest : heldPages (b :: live) =
        (if b.InPool then Finset.Ico b.firstIndex (b.firstIndex + b.totalPages) else ∅) ∪ heldPages live := rfl
    by_cases inPool : b.InPool
    · have separate : Disjoint (Finset.Ico b.firstIndex (b.firstIndex + b.totalPages)) (heldPages live) := by
        refine Finset.disjoint_left.mpr fun page own held => ?_
        obtain ⟨c, mem, holds⟩ := (mem_heldPages live page).mp held
        exact first c mem page ⟨⟨inPool, Finset.mem_Ico.mp own⟩, holds⟩
      rw [rest, if_pos inPool, Finset.card_union_of_disjoint separate, ih others, Nat.card_Ico]
      simp [inPool]
    · rw [rest, if_neg inPool, Finset.empty_union, ih others]
      simp [inPool]

theorem Kept.holds_apart (kept : alloc.Kept live) : live.Pairwise fun b c => ∀ page, ¬ (b.Holds page ∧ c.Holds page) :=
  kept.apart.imp_of_mem fun mem other ne _ both =>
    DMAAlloc.holds_apart (kept.placed _ mem) (kept.placed _ other) ne both.1 both.2

theorem Kept.freePages (kept : alloc.Kept live) : alloc.freePagesUnsafe +
    ((live.filter fun b => decide b.InPool).map DMABuffer.totalPages).sum = alloc.poolPages := by
  have free : alloc.freePagesUnsafe = ((Finset.range alloc.poolPages).filter fun page => page ∉ heldPages live).card := by
    have same : (List.range alloc.poolPages).filter (fun page => !bitmapTest alloc.bitmap page) =
        (List.range alloc.poolPages).filter fun page => decide (page ∉ heldPages live) := by
      refine List.filter_congr fun page mem => ?_
      have bit := kept.bits page (List.mem_range.mp mem)
      rw [← mem_heldPages] at bit
      by_cases held : page ∈ heldPages live
      · simp [held, bit.mpr held]
      · simp [held, bit.not.mpr held]
    unfold freePagesUnsafe
    rw [same]
    rfl
  have inside : heldPages live ⊆ Finset.range alloc.poolPages := by
    intro page held
    obtain ⟨b, mem, holds⟩ := (mem_heldPages live page).mp held
    cases (kept.placed b mem).located with
    | outside noIndex => exact absurd noIndex holds.1
    | inPool fits =>
      have within := holds.2
      exact Finset.mem_range.mpr (by omega)
  rw [free, ← card_heldPages kept.holds_apart, ← Finset.sdiff_eq_filter, Finset.card_sdiff_of_subset inside,
    Finset.card_range]
  have bound := Finset.card_le_card inside
  rw [Finset.card_range] at bound
  omega

end

end DMAAlloc

namespace DMARun

/-- What the other allocators answer leads to memory that is free; a buffer is freed once, and
written inside its size. -/
def Allowed (run : DMARun) : DMAOp → Prop
  | .allocatePages count _ first second =>
    run.alloc.Fresh run.live (count.toNat + DMAAlloc.guardFor count.toNat dmaGuardPagesDefault) first ∧
      run.alloc.Fresh run.live (count.toNat + DMAAlloc.guardFor count.toNat 0) second
  | .allocateBytes bytes _ first second =>
    let count := sub64 (add64 bytes.toNat pageSize) 1 / pageSize
    run.alloc.Fresh run.live (count + DMAAlloc.guardFor count dmaGuardPagesDefault) first ∧
      run.alloc.Fresh run.live (count + DMAAlloc.guardFor count 0) second
  | .free b => b ∈ run.live
  | .write b offset _ | .deviceWrite b offset _ => b ∈ run.live ∧ offset < b.size

instance (run : DMARun) : DecidablePred run.Allowed
  | .allocatePages .. | .allocateBytes .. => inferInstanceAs (Decidable (_ ∧ _))
  | .free _ => inferInstanceAs (Decidable (_ ∈ _))
  | .write .. | .deviceWrite .. => inferInstanceAs (Decidable (_ ∧ _))

/-- The pool as `InitializeDMA` leaves it. -/
structure Initialised (alloc : DMAAlloc) : Prop where
  pool : alloc.PoolReady
  free : ∀ page < alloc.poolPages, bitmapTest alloc.bitmap page = false

structure Intact (run : DMARun) : Prop where
  bits : ∀ page < run.alloc.poolPages, bitmapTest run.alloc.bitmap page = true ↔ ∃ b ∈ run.live, b.Holds page
  disjoint : run.live.Pairwise fun b c => ∀ page, ¬ (b.Holds page ∧ c.Holds page)
  located : ∀ b ∈ run.live, b.InPool → b.firstIndex + b.totalPages ≤ run.alloc.poolPages ∧
    b.physAddr = run.alloc.poolPhys + b.firstIndex * pageSize ∧ b.virtAddr = run.alloc.poolVirt + b.firstIndex * pageSize
  size : ∀ b ∈ run.live, b.requestedBytes ≤ b.size
  guardsOutside : ∀ b ∈ run.live, ∀ c ∈ run.live, ∀ i < guardBytes b, ∀ j < c.size,
    run.alloc.memory.physical (add64 (guardAddr b) i) ≠ run.alloc.memory.physical (c.virtAddr + j)
  guards : ∀ b ∈ run.live, guardRegionIntact run.alloc.memory b = true
  freePages : run.alloc.getStats.poolFreePages +
    ((run.live.filter fun b => decide b.InPool).map DMABuffer.totalPages).sum = run.alloc.poolPages

/-- A buffer that is served has room for the request, and its usable area is zero. -/
def ServesClear (bytes : Nat) (result : Option DMABuffer × DMAAlloc) : Prop :=
  ∀ b ∈ result.1, bytes ≤ b.size ∧ ∀ off < b.size, result.2.memory.readByte (b.virtAddr + off) = 0

section

variable {run after : DMARun} {op : DMAOp}

theorem kept_step (kept : run.alloc.Kept run.live) (allow : run.Allowed op) (ht : run.step op = some after) :
    after.alloc.Kept after.live := by
  cases op with
  | allocatePages count heap first snd =>
    cases ht
    exact (kept.allocateDMAPages count.toNat_lt allow.1 allow.2).kept
  | allocateBytes bytes heap first snd =>
    cases ht
    exact (kept.allocateDMABytes bytes.toNat_lt rfl allow.1 allow.2).1.kept
  | free b =>
    cases ht
    exact kept.freeDMABuffer allow
  | write b off value =>
    cases ht
    obtain ⟨shaped, mapped, _, _⟩ := kept.placed b allow.1
    have within : off < b.bytes := by
      rw [shaped.bytes_eq]
      exact Nat.lt_of_lt_of_le allow.2 (Nat.le_add_right ..)
    have h := (shaped.translate mapped within).2
    have written := kept.written allow.1 allow.2 value
    rw [← h] at written
    exact written
  | deviceWrite b off value =>
    cases ht
    exact kept.written allow.1 allow.2 value

theorem kept_of_reaches {alloc : DMAAlloc} (initialised : Initialised alloc) (hr : Reaches step Allowed ⟨alloc, []⟩ run) :
    run.alloc.Kept run.live := by
  refine hr.invariant (fun run => run.alloc.Kept run.live) ?_ fun _ _ _ kept allow ht => kept_step kept allow ht
  exact ⟨initialised.pool, fun _ mem => (nomatch mem), List.Pairwise.nil, fun page lt => by
    simp [initialised.free page lt]⟩

theorem intact_of_kept (kept : run.alloc.Kept run.live) : run.Intact where
  bits := kept.bits
  disjoint := kept.holds_apart
  located b mem inPool := by
    cases (kept.placed b mem).located with
    | outside noIndex => exact absurd noIndex inPool
    | inPool fits physAddr virtAddr => exact ⟨fits, physAddr, virtAddr⟩
  size b mem := (kept.placed b mem).shaped.requested
  guardsOutside b mem c other i inGuard j inside := by
    have shaped := (kept.placed b mem).shaped
    have otherShaped := (kept.placed c other).shaped
    rw [shaped.sizes.2.2.2.1] at inGuard
    have within : j < c.bytes := by
      rw [otherShaped.bytes_eq]
      exact Nat.lt_of_lt_of_le inside (Nat.le_add_right ..)
    obtain ⟨sum, guard⟩ := shaped.translate_guard (kept.placed b mem).mapped inGuard
    have usable := (otherShaped.translate (kept.placed c other).mapped within).2
    unfold guardAddr
    rw [sum, guard, usable]
    by_cases same : b = c
    · subst same
      omega
    · have separate := (kept.apart.forall mem other same).1
      have length := shaped.bytes_eq
      unfold RangesApart at separate
      omega
  guards b mem := by
    obtain ⟨shaped, mapped, guarded, _⟩ := kept.placed b mem
    exact shaped.guardRegionIntact mapped guarded
  freePages := by
    unfold DMAAlloc.getStats
    rw [if_neg (Nat.ne_of_gt kept.pool.positive)]
    exact kept.freePages

/-- From an initialised pool, every run of the allocator keeps the bitmap, the buffers and the guards in
agreement, and what it serves is clear and large enough. -/
theorem dma_pool_intact {alloc : DMAAlloc} (initialised : Initialised alloc) (reached : Reaches step Allowed ⟨alloc, []⟩ run) :
    run.Intact ∧
      (∀ count heap first second, run.Allowed (.allocatePages count heap first second) →
        ServesClear (count.toNat * pageSize) (run.alloc.allocateDMAPages count.toNat heap first second)) ∧
      ∀ bytes heap first second, run.Allowed (.allocateBytes bytes heap first second) →
        ServesClear bytes.toNat (run.alloc.allocateDMABytes bytes.toNat heap first second) := by
  have kept := kept_of_reaches initialised reached
  refine ⟨intact_of_kept kept, fun count heap first second allow b served => ?_, fun bytes heap first second allow b served => ?_⟩
  · obtain ⟨size, usable⟩ := (kept.allocateDMAPages count.toNat_lt allow.1 allow.2).usable b served
    exact ⟨size.ge, usable⟩
  · obtain ⟨clear, fits⟩ := kept.allocateDMABytes bytes.toNat_lt rfl allow.1 allow.2
    exact ⟨(fits b served).1, (clear.usable b served).2⟩

end

/-- A pool of 64 pages, mapped from 0xffff800000000000 on. -/
def smallPool : DMAAlloc where
  poolPhys := 0x200000
  poolVirt := 0xffff800000000000
  poolPages := 64
  bitmap := fun _ => 0#8
  stats := ⟨64, 0, 0, 0, 0, 0⟩
  memory := ⟨fun page => page - 0xffff800000000 + 0x200, fun _ => 0⟩

theorem initialised_smallPool : Initialised smallPool where
  pool := by
    refine ⟨by decide, by decide, by decide, by decide, by decide, by decide, fun i lt => ?_⟩
    have bound : i < 64 := lt
    simp only [smallPool, pageSize]
    omega
  free page _ := by
    rw [bitmapTest_eq]
    exact BitVec.getLsbD_zero

/-- Two buffers fill the pool with their guards, and the third is made outside it. -/
theorem dma_pool_intact_three_buffers : ∃ run, Reaches step Allowed ⟨smallPool, []⟩ run ∧
    run.live.map (fun b => (b.firstIndex, b.totalPages)) = [(noIndex, 6), (61, 3), (0, 61)] ∧ run.Intact := by
  have ran : (runAll step Allowed [.allocatePages 60 true .noFrames .noFrames, .allocateBytes 5000 true .noFrames .noFrames,
      .allocatePages 5 true (.served 0x400000 0xffff800000100000) .noFrames] ⟨smallPool, []⟩).any (fun run =>
        decide (run.live.map (fun b => (b.firstIndex, b.totalPages)) = [(noIndex, 6), (61, 3), (0, 61)])) = true := by
    decide +kernel
  obtain ⟨run, done, buffers⟩ := (Option.any_eq_true ..).mp ran
  have hr := Reaches.start.runAll done
  exact ⟨run, hr, of_decide_eq_true buffers, (dma_pool_intact initialised_smallPool hr).1⟩

end DMARun

end RosKernel.Memory
