import Mathlib.Order.Interval.Finset.Nat
import RosKernel.Library.Runs
import RosKernel.Memory.Physical

/-! Who owns which managed frame over a run of the frame allocator.

The bitmap only says that a frame is in use. The run records for whom: the frames
that each live allocation still holds, and the frames that `PhysicalReserve` was
asked to withhold. A reservation names `count` whole frames from the frame that
contains `addr` on; those below `PHYS_BASE` belong to the other bitmap.
-/

set_option autoImplicit false

namespace RosKernel.Memory

open Library

structure FrameState where
  maps : Bitmaps
  live : List (Finset Nat)
  reserved : Finset Nat

inductive FrameOp where
  | alloc (count : UInt64)
  | free (addr count : UInt64)
  | reserve (addr count : UInt64)

def frameRange (addr count : Nat) : Finset Nat :=
  Finset.Ico ((addr - physBase) / pageSize) ((addr - physBase) / pageSize + count)

/-- The managed frames a reservation names. -/
def requested (addr count : Nat) : Finset Nat :=
  Finset.Ico (addr / pageSize - lowFrames) (min (addr / pageSize + count - lowFrames) physFrames)

def FrameState.step (state : FrameState) : FrameOp → Option FrameState
  | .alloc count =>
    let (addr, maps) := physicalAllocPages state.maps count.toNat
    some { state with
      maps := maps
      live := if addr = 0 then state.live else frameRange addr count.toNat :: state.live }
  | .free addr count => some { state with
      maps := physicalFreePages state.maps addr.toNat count.toNat
      live := state.live.map (· \ frameRange addr.toNat count.toNat) }
  | .reserve addr count => some { state with
      maps := physicalReserve state.maps addr.toNat count.toNat
      reserved := state.reserved ∪ requested addr.toNat count.toNat }

def FrameState.boot (maps : Bitmaps) : FrameState := ⟨maps, [], ∅⟩

/-- A page-aligned managed range all of whose frames are currently allocated. -/
def FrameState.Allocated (state : FrameState) (addr count : Nat) : Prop :=
  addr % pageSize = 0 ∧ physBase ≤ addr ∧ ∀ frame ∈ frameRange addr count, ∃ own ∈ state.live, frame ∈ own

/-- What a caller of the three operations owes: only allocated ranges are freed,
and no reservation is made on top of a live allocation. -/
def FrameState.Called (state : FrameState) : FrameOp → Prop
  | .alloc _ => True
  | .free addr count => state.Allocated addr.toNat count.toNat
  | .reserve addr count => ∀ own ∈ state.live, Disjoint own (requested addr.toNat count.toNat)

/-- The page a reservation is counted from: below `PHYS_BASE` the code rounds up. -/
def firstPage (addr : Nat) : Nat :=
  if addr < physBase then (addr + (pageSize - 1)) / pageSize else addr / pageSize

/-- A reservation that reaches the managed range starts above address zero and
ends inside the managed range. -/
def Reservable (addr count : Nat) : Prop :=
  requested addr count = ∅ ∨ (addr ≠ 0 ∧ firstPage addr + count ≤ lowFrames + physFrames)

def FrameState.CalledInRange (state : FrameState) (op : FrameOp) : Prop :=
  state.Called op ∧ ∀ addr count, op = .reserve addr count → Reservable addr.toNat count.toNat

/-- No frame has two owners. -/
def FrameState.OwnedOnce (state : FrameState) : Prop :=
  state.live.Pairwise Disjoint ∧ ∀ own ∈ state.live, Disjoint own state.reserved

/-- The allocator's answer to one request: the least free run, marked and nothing
else, or no change at all. -/
structure AllocatesLeastRun (maps : Bitmaps) (count : Nat) : Prop where
  taken : (physicalAllocPages maps count).1 ≠ 0 →
    ∃ start, (physicalAllocPages maps count).1 = physBase + pageSize * start ∧
      FreeRun maps start count ∧ (∀ earlier, earlier < start → ¬ FreeRun maps earlier count) ∧
      (physicalAllocPages maps count).2.low = maps.low ∧
      ∀ frame, (physicalAllocPages maps count).2.used frame = true ↔
        maps.used frame = true ∨ (start ≤ frame ∧ frame < start + count)
  refused : (physicalAllocPages maps count).1 = 0 ↔ count = 0 ∨ ∀ start, ¬ FreeRun maps start count
  unchanged : (physicalAllocPages maps count).1 = 0 → (physicalAllocPages maps count).2 = maps

theorem allocatesLeastRun (maps : Bitmaps) (count : Nat) : AllocatesLeastRun maps count := by
  rcases physicalAllocPages_cases maps count with ⟨eq, none_⟩ | ⟨start, pos, run, least, eq⟩
  · exact ⟨fun ht => by simp [eq] at ht, by simp [eq, none_], by simp [eq]⟩
  · have nz : physBase + start * pageSize ≠ 0 := by simp only [physBase]; omega
    refine ⟨fun _ => ⟨start, by rw [eq, Nat.mul_comm], run, least, by rw [eq], fun frame => ?_⟩, ?_, ?_⟩
    · rw [eq, used_setRange, Bool.or_eq_true, decide_eq_true_eq, or_comm]
    · rw [eq]
      refine ⟨fun zero => absurd zero nz, fun refused => ?_⟩
      rcases refused with zero | none_
      · exact absurd zero (by omega)
      · exact absurd run (none_ start)
    · rw [eq]
      exact fun zero => absurd zero nz

/-- Every frame that somebody holds is marked, so the search never finds it. -/
structure FrameState.Marked (state : FrameState) : Prop where
  once : state.OwnedOnce
  held : ∀ own ∈ state.live, ∀ frame ∈ own, frame < physFrames ∧ state.maps.used frame = true
  withheld : ∀ frame ∈ state.reserved, state.maps.used frame = true

theorem FrameState.boot_marked (maps : Bitmaps) : (boot maps).Marked := by
  constructor <;> simp [boot, OwnedOnce]

theorem mem_frameRange {start count frame : Nat} :
    frame ∈ frameRange (physBase + start * pageSize) count ↔ start ≤ frame ∧ frame < start + count := by
  simp only [frameRange, Finset.mem_Ico, physBase, pageSize]
  omega

theorem FrameState.Marked.alloc {state : FrameState} (marked : state.Marked) (count : UInt64) :
    ∀ after, state.step (.alloc count) = some after → after.Marked := by
  intro after ht
  simp only [step, Option.some.injEq] at ht
  subst ht
  rcases physicalAllocPages_cases state.maps count.toNat with ⟨eq, _⟩ | ⟨start, _, run, _, eq⟩
  · rw [eq]
    exact marked
  · have fresh : ∀ frame ∈ frameRange (physBase + start * pageSize) count.toNat,
        state.maps.used frame = false := fun frame hin =>
      run.2 frame (mem_frameRange.mp hin).1 (mem_frameRange.mp hin).2
    have ne : ∀ held : Finset Nat, (∀ frame ∈ held, state.maps.used frame = true) →
        Disjoint (frameRange (physBase + start * pageSize) count.toNat) held := by
      intro held used
      rw [Finset.disjoint_left]
      intro frame hin other
      have := fresh frame hin
      rw [used frame other] at this
      exact absurd this (by decide)
    have nz : physBase + start * pageSize ≠ 0 := by simp only [physBase]; omega
    simp only [eq, nz, if_false]
    refine ⟨⟨?_, ?_⟩, ?_, ?_⟩
    · exact List.pairwise_cons.mpr
        ⟨fun own mem => ne own fun frame hin => (marked.held own mem frame hin).2, marked.once.1⟩
    · intro own mem
      rcases List.mem_cons.mp mem with rfl | mem
      · exact ne state.reserved marked.withheld
      · exact marked.once.2 own mem
    · intro own mem frame hin
      rw [used_setRange, Bool.or_eq_true, decide_eq_true_eq]
      rcases List.mem_cons.mp mem with rfl | mem
      · have pos := mem_frameRange.mp hin
        exact ⟨by have := run.1; omega, .inl pos⟩
      · exact ⟨(marked.held own mem frame hin).1, .inr (marked.held own mem frame hin).2⟩
    · intro frame hin
      rw [used_setRange, marked.withheld frame hin, Bool.or_true]

theorem FrameState.Allocated.frames {state : FrameState} {addr count : Nat} (marked : state.Marked)
    (alloc : state.Allocated addr count) (pos : 0 < count) :
    ∃ start, addr = physBase + start * pageSize ∧ start + count ≤ physFrames := by
  obtain ⟨hal, above, hin⟩ := alloc
  refine ⟨(addr - physBase) / pageSize, ?_, ?_⟩
  · simp only [physBase, pageSize] at hal above ⊢
    omega
  · obtain ⟨own, mem, holds⟩ := hin ((addr - physBase) / pageSize + (count - 1))
      (by simp only [frameRange, Finset.mem_Ico]; omega)
    have := (marked.held own mem _ holds).1
    omega

theorem FrameState.Marked.free {state : FrameState} (marked : state.Marked) (addr count : UInt64)
    (allocated : state.Allocated addr.toNat count.toNat) :
    ∀ after, state.step (.free addr count) = some after → after.Marked := by
  intro after ht
  simp only [step, Option.some.injEq] at ht
  subst ht
  have kept : ∀ frame, frame ∉ frameRange addr.toNat count.toNat → state.maps.used frame = true →
      (physicalFreePages state.maps addr.toNat count.toNat).used frame = true := by
    intro frame out used
    by_cases pos : 0 < count.toNat
    · obtain ⟨start, eq, bound⟩ := allocated.frames marked pos
      rw [eq] at out ⊢
      rw [mem_frameRange] at out
      rw [used_physicalFreePages bound, used, Bool.and_true, Bool.not_eq_true', decide_eq_false_iff_not]
      exact out
    · rw [show count.toNat = 0 by omega]
      simpa [physicalFreePages] using used
  refine ⟨⟨?_, ?_⟩, ?_, ?_⟩
  · exact marked.once.1.map _ fun own other ne =>
      ne.mono Finset.sdiff_subset Finset.sdiff_subset
  · intro own mem
    obtain ⟨pre, was, rfl⟩ := List.mem_map.mp mem
    exact (marked.once.2 pre was).mono_left Finset.sdiff_subset
  · intro own mem frame hin
    obtain ⟨pre, was, rfl⟩ := List.mem_map.mp mem
    obtain ⟨old, out⟩ := Finset.mem_sdiff.mp hin
    obtain ⟨bound, used⟩ := marked.held pre was frame old
    exact ⟨bound, kept frame out used⟩
  · -- a reserved frame is in no live alloc, so it is not among the freed ones
    intro frame hin
    refine kept frame (fun freed => ?_) (marked.withheld frame hin)
    obtain ⟨own, mem, holds⟩ := allocated.2.2 frame freed
    exact Finset.disjoint_left.mp (marked.once.2 own mem) holds hin

theorem physicalReserveLow_phys (maps : Bitmaps) (addr count : Nat) :
    (physicalReserveLow maps addr count).phys = maps.phys := by
  unfold physicalReserveLow
  split
  · rfl
  split
  · rfl
  split <;> rfl

theorem used_reserveManaged (maps : Bitmaps) (addr count frame : Nat) (used : maps.used frame = true) :
    (reserveManaged maps addr count).used frame = true := by
  unfold reserveManaged
  split
  · exact used
  · rw [used_setRange, used, Bool.or_true]

theorem reserveManaged_marks {maps : Bitmaps} {addr count frame : Nat}
    (bound : (addr - physBase) / pageSize + count ≤ physFrames)
    (low : (addr - physBase) / pageSize ≤ frame) (high : frame < (addr - physBase) / pageSize + count) :
    (reserveManaged maps addr count).used frame = true := by
  unfold reserveManaged
  rw [add64_eq (by simp only [physFrames] at bound; omega), if_neg (by omega), used_setRange]
  simp [low, high]

theorem used_physicalReserve (maps : Bitmaps) (addr count frame : Nat) (used : maps.used frame = true) :
    (physicalReserve maps addr count).used frame = true := by
  have low : ∀ n, (physicalReserveLow maps addr n).used frame = true := fun n => by
    unfold Bitmaps.used
    rw [physicalReserveLow_phys]
    exact used
  unfold physicalReserve
  split
  · exact used
  split
  · split
    · exact low count
    · exact used_reserveManaged _ _ _ _ (low _)
  · exact used_reserveManaged _ _ _ _ used

theorem physicalReserve_marks {maps : Bitmaps} {addr count frame : Nat} (bounds : addr < 2 ^ 64 ∧ count < 2 ^ 64)
    (reservable : Reservable addr count) (named : frame ∈ requested addr count) :
    (physicalReserve maps addr count).used frame = true := by
  rcases reservable with empty | ⟨nz, fits⟩
  · grind
  · simp only [requested, Finset.mem_Ico, lt_min_iff] at named
    obtain ⟨first, last, managed⟩ := named
    simp only [lowFrames, physBase, pageSize, physFrames] at first last managed
    have pos : count ≠ 0 := by omega
    unfold physicalReserve
    rw [if_neg (by omega)]
    split
    next below =>
      rw [firstPage, if_pos below] at fits
      simp only [lowFrames, physBase, pageSize, physFrames] at fits below
      -- the range crosses `PHYS_BASE`: the sum does not wrap and the high part is what remains
      have crosses : ¬ add64 addr (mul64 count pageSize) ≤ physBase := by
        simp only [pageSize, physBase]
        rw [mul64_eq (by omega), add64_eq (by omega)]
        omega
      rw [if_neg crosses]
      have rest : sub64 count ((physBase - addr) / pageSize) = count - (physBase - addr) / pageSize := by
        apply sub64_eq
        · simp only [physBase, pageSize]; omega
        · exact bounds.2
      dsimp only
      rw [rest]
      apply reserveManaged_marks
      all_goals simp only [physBase, pageSize, physFrames]; omega
    next above =>
      rw [firstPage, if_neg above] at fits
      simp only [lowFrames, physBase, pageSize, physFrames] at fits above
      apply reserveManaged_marks
      all_goals simp only [physBase, pageSize, physFrames]; omega

theorem FrameState.Marked.reserve {state : FrameState} (marked : state.Marked) (addr count : UInt64)
    (ne : ∀ own ∈ state.live, Disjoint own (requested addr.toNat count.toNat))
    (reservable : Reservable addr.toNat count.toNat) :
    ∀ after, state.step (.reserve addr count) = some after → after.Marked := by
  intro after ht
  simp only [step, Option.some.injEq] at ht
  subst ht
  refine ⟨⟨marked.once.1, fun own mem => ?_⟩, fun own mem frame hin => ?_, fun frame hin => ?_⟩
  · exact Finset.disjoint_union_right.mpr ⟨marked.once.2 own mem, ne own mem⟩
  · obtain ⟨bound, used⟩ := marked.held own mem frame hin
    exact ⟨bound, used_physicalReserve _ _ _ _ used⟩
  · rcases Finset.mem_union.mp hin with old | named
    · exact used_physicalReserve _ _ _ _ (marked.withheld frame old)
    · exact physicalReserve_marks ⟨addr.toNat_lt, count.toNat_lt⟩ reservable named

theorem FrameState.Marked.next {state after : FrameState} {op : FrameOp} (marked : state.Marked)
    (called : state.CalledInRange op) (ht : state.step op = some after) : after.Marked := by
  cases op with
  | alloc count => exact marked.alloc count after ht
  | free addr count => exact marked.free addr count called.1 after ht
  | reserve addr count => exact marked.reserve addr count called.1 (called.2 addr count rfl) after ht

theorem FrameState.Marked.realloc {state : FrameState} (marked : state.Marked) {start count : Nat}
    (pos : 0 < count) (live : Finset.Ico start (start + count) ∈ state.live) :
    (physicalAllocPages (physicalFreePages state.maps (physBase + pageSize * start) count) count).1 ≠ 0 := by
  have bound : start + count ≤ physFrames := by
    have := (marked.held _ live (start + (count - 1)) (by rw [Finset.mem_Ico]; omega)).1
    omega
  rw [Nat.mul_comm]
  intro refused
  rcases (allocatesLeastRun _ _).refused.mp refused with zero | none_
  · omega
  · refine none_ start ⟨bound, fun frame low high => ?_⟩
    rw [used_physicalFreePages bound]
    simp [low, high]

/-- In every run whose reservations end inside the managed range, live allocations
are disjoint from each other and from reserved frames, and the allocator takes the
least free run. -/
theorem frames_owned_once (maps : Bitmaps) (state : FrameState)
    (reached : Reaches FrameState.step FrameState.CalledInRange (FrameState.boot maps) state) :
    state.OwnedOnce ∧ (∀ count : UInt64, AllocatesLeastRun state.maps count.toNat) ∧
      ∀ start count, 0 < count → Finset.Ico start (start + count) ∈ state.live →
        (physicalAllocPages (physicalFreePages state.maps (physBase + pageSize * start) count) count).1 ≠ 0 := by
  have marked : state.Marked := reached.invariant FrameState.Marked (FrameState.boot_marked maps)
    fun _ _ _ marked called ht => marked.next called ht
  exact ⟨marked.once, fun count => allocatesLeastRun state.maps count.toNat,
    fun _ _ pos live => marked.realloc pos live⟩

/-- All frames free, as `Physical` leaves them without a memory map. -/
def freeMaps : Bitmaps := ⟨fun _ => 0#8, fun _ => 0xFF#8⟩

theorem freeMaps_alloc : physicalAllocPages freeMaps 1 =
    (physBase, { freeMaps with phys := bitmapSetRange freeMaps.phys 0 1 }) := by
  have first : findFrames freeMaps.phys physFrames 1 = some 0 := by
    rw [findFrames, scan_eq_some_iff (by decide)]
    refine ⟨fun i lt => ?_, by decide, fun earlier pre => absurd pre (Nat.not_lt_zero _)⟩
    have zero : i = 0 := by omega
    subst zero
    decide
  unfold physicalAllocPages
  rw [if_neg (by decide), first]
  rfl

theorem FrameState.step_alloc_free (live : List (Finset Nat)) (reserved : Finset Nat) :
    FrameState.step ⟨freeMaps, live, reserved⟩ (.alloc 1) =
      some ⟨{ freeMaps with phys := bitmapSetRange freeMaps.phys 0 1 }, Finset.Ico 0 1 :: live, reserved⟩ := by
  have one : (1 : UInt64).toNat = 1 := rfl
  simp only [FrameState.step, one, freeMaps_alloc]
  rfl

theorem frames_owned_once_after_alloc :
    Finset.Ico 0 1 ∈ [Finset.Ico 0 1] ∧
      (physicalAllocPages (physicalFreePages
        { freeMaps with phys := bitmapSetRange freeMaps.phys 0 1 } (physBase + pageSize * 0) 1) 1).1 ≠ 0 := by
  have hr : Reaches FrameState.step FrameState.CalledInRange (FrameState.boot freeMaps)
      ⟨{ freeMaps with phys := bitmapSetRange freeMaps.phys 0 1 }, [Finset.Ico 0 1], ∅⟩ := by
    refine .next (.alloc 1) .start ⟨trivial, fun _ _ eq => nomatch eq⟩ ?_
    exact FrameState.step_alloc_free [] ∅
  exact ⟨.head _, (frames_owned_once freeMaps _ hr).2.2 0 1 (by decide)
    (.head _)⟩

theorem physicalReserve_past_end (maps : Bitmaps) : physicalReserve maps 0x100000 262145 = maps := by
  simp [physicalReserve, reserveManaged, physBase, pageSize, physFrames, add64]

/-- A reservation of the whole managed range and one frame more marks nothing, so
the next allocation hands out a frame of it. -/
theorem reserved_frame_handed_out :
    ¬ ∀ maps state, Reaches FrameState.step FrameState.Called (FrameState.boot maps) state →
      state.OwnedOnce := by
  intro owned
  have reserved : Reaches FrameState.step FrameState.Called (FrameState.boot freeMaps)
      ⟨freeMaps, [], ∅ ∪ requested 0x100000 262145⟩ := by
    refine .next (.reserve 0x100000 262145) .start (fun own mem => nomatch mem) ?_
    have addr : (0x100000 : UInt64).toNat = 0x100000 := rfl
    have count : (262145 : UInt64).toNat = 262145 := rfl
    simp only [FrameState.step, FrameState.boot, addr, count, physicalReserve_past_end]
  have handed : Reaches FrameState.step FrameState.Called (FrameState.boot freeMaps)
      ⟨{ freeMaps with phys := bitmapSetRange freeMaps.phys 0 1 }, [Finset.Ico 0 1],
        ∅ ∪ requested 0x100000 262145⟩ :=
    .next (.alloc 1) reserved trivial (FrameState.step_alloc_free [] _)
  have ne := (owned freeMaps _ handed).2 (Finset.Ico 0 1) (.head _)
  have named : 0 ∈ ∅ ∪ requested 0x100000 262145 := by
    rw [Finset.empty_union, requested, Finset.mem_Ico]
    decide
  exact Finset.disjoint_left.mp ne (by decide) named

end RosKernel.Memory
