import RosKernel.Library.Runs
import RosKernel.Memory.Physical

/-! What a reservation withholds from every later allocation, above 1 MiB and below.

The allocator of the lower frames fails with the address of the first of them. Frames of both ranges are numbered by their
address, so that the managed ones are those below 1 MiB and the gigabyte behind it.
-/

set_option autoImplicit false

namespace RosKernel.Memory

open Library

/-- A frame of the low range is in use. -/
def Bitmaps.usedLow (maps : Bitmaps) (frame : Nat) : Bool := bitmapTest maps.low frame

/-- `count` consecutive low frames from `start` on are free. -/
def LowFreeRun (maps : Bitmaps) (start count : Nat) : Prop :=
  start + count ≤ lowFrames ∧ ∀ frame, start ≤ frame → frame < start + count → maps.usedLow frame = false

/-- The request is marked on the first run that fits, and its address is what is returned. -/
structure LowAllocates (maps : Bitmaps) (count start : Nat) : Prop where
  run : LowFreeRun maps start count
  least : ∀ earlier < start, ¬LowFreeRun maps earlier count
  taken : physicalAllocLowPages maps count =
    (start * pageSize, { maps with low := bitmapSetRange maps.low start count })

section

variable {maps : Bitmaps} {start count : Nat}

theorem lowFreeRun_iff : LowFreeRun maps start count ↔
    start + count ≤ lowFrames ∧ IsRun (fun idx => !bitmapTest maps.low idx) start count := by
  refine and_congr_right fun _ => ⟨fun clear i lt => ?_, fun isRun frame lower upper => ?_⟩
  · simp only [Bool.not_eq_true']
    exact clear (start + i) (by omega) (by omega)
  · have bit := isRun (frame - start) (by omega)
    rw [show start + (frame - start) = frame by omega] at bit
    simpa [Bitmaps.usedLow] using bit

/-- The request is refused without a change, or the first run is taken. -/
theorem physicalAllocLowPages_cases (maps : Bitmaps) (count : Nat) :
    (physicalAllocLowPages maps count = (0, maps) ∧
      (count = 0 ∨ count > lowFrames ∨ ∀ start, ¬LowFreeRun maps start count)) ∨
    (0 < count ∧ ∃ start, LowAllocates maps count start) := by
  by_cases out : count = 0 ∨ count > lowFrames
  · exact .inl ⟨if_pos out, out.imp id .inl⟩
  have pos : 0 < count := by omega
  have searched : physicalAllocLowPages maps count = (findFrames maps.low lowFrames count).elim (0, maps) fun start =>
      (start * pageSize, { maps with low := bitmapSetRange maps.low start count }) := by
    rw [physicalAllocLowPages, if_neg out]
    cases findFrames maps.low lowFrames count <;> rfl
  cases hf : findFrames maps.low lowFrames count with
  | none =>
    rw [hf] at searched
    refine .inl ⟨searched, .inr (.inr fun start run => ?_)⟩
    obtain ⟨bound, isRun⟩ := lowFreeRun_iff.mp run
    exact (scan_eq_none_iff pos).mp hf start bound isRun
  | some start =>
    rw [hf] at searched
    obtain ⟨isRun, bound, least⟩ := (scan_eq_some_iff pos).mp hf
    refine .inr ⟨pos, start, lowFreeRun_iff.mpr ⟨bound, isRun⟩, fun earlier pre run => ?_, searched⟩
    exact least earlier pre (lowFreeRun_iff.mp run).2

section

variable (allocates : LowAllocates maps count start)
include allocates

theorem LowAllocates.unique {other : Nat} (run : LowFreeRun maps other count)
    (first : ∀ earlier < other, ¬LowFreeRun maps earlier count) : other = start := by
  rcases Nat.lt_trichotomy other start with pre | eq | after
  · exact absurd run (allocates.least other pre)
  · exact eq
  · exact absurd allocates.run (first start after)

theorem LowAllocates.marks (frame : Nat) : (physicalAllocLowPages maps count).2.usedLow frame =
      (decide (start ≤ frame ∧ frame < start + count) || maps.usedLow frame) := by
  rw [allocates.taken]
  exact bitmapTest_setRange ..

theorem LowAllocates.frees (pos : 0 < count) (away : start ≠ 0) (frame : Nat) :
    (physicalFreeLowPages (physicalAllocLowPages maps count).2 (start * pageSize) count).usedLow frame = maps.usedLow frame := by
  obtain ⟨bound, clear⟩ := allocates.run
  have addr : start * pageSize / pageSize = start := Nat.mul_div_cancel _ (by decide)
  have fits : add64 start count = start + count := add64_eq (Nat.lt_of_le_of_lt bound (by decide))
  unfold physicalFreeLowPages
  rw [if_neg (by simp only [pageSize]; omega), if_neg, addr, fits, if_neg (by omega)]
  · unfold Bitmaps.usedLow
    rw [bitmapTest_clearRange]
    have marked := allocates.marks frame
    unfold Bitmaps.usedLow at marked
    rw [marked]
    by_cases hin : start ≤ frame ∧ frame < start + count
    · have free := clear frame hin.1 hin.2
      unfold Bitmaps.usedLow at free
      simp [hin, free]
    · simp [hin]
  · simp only [lowFrames, physBase, pageSize] at bound ⊢
    omega

end

/-- Zero means failure: nothing is marked then and only then, and that is when the request cannot be met;
otherwise the first run is returned, and giving it back undoes the call. -/
structure LowTruthful (maps : Bitmaps) (count : Nat) : Prop where
  marksNothing : (physicalAllocLowPages maps count).1 = 0 ↔
    ∀ frame < lowFrames, (physicalAllocLowPages maps count).2.usedLow frame = maps.usedLow frame
  fails : (physicalAllocLowPages maps count).1 = 0 ↔
    count = 0 ∨ count > lowFrames ∨ ∀ start, ¬LowFreeRun maps start count
  succeeds : 0 < count → ∀ start, LowFreeRun maps start count → (∀ earlier < start, ¬LowFreeRun maps earlier count) →
    (physicalAllocLowPages maps count).1 = start * pageSize ∧ ∀ frame,
      (physicalFreeLowPages (physicalAllocLowPages maps count).2 (physicalAllocLowPages maps count).1 count).usedLow frame =
        maps.usedLow frame

/-- A run at address zero cannot be told from a failure. -/
theorem LowTruthful.away (truthful : LowTruthful maps count) : ¬(0 < count ∧ LowFreeRun maps 0 count) := by
  rintro ⟨pos, atZero⟩
  have ret := (truthful.succeeds pos 0 atZero fun _ none => absurd none (Nat.not_lt_zero _)).1
  rcases truthful.fails.mp ret with zero | large | none
  · omega
  · have bound := atZero.1
    omega
  · exact none 0 atZero

/-- The allocator reports success truthfully exactly if the first run is not the one at address zero. -/
theorem physicalAllocLowPages_truthful_iff (maps : Bitmaps) (count : Nat) :
    LowTruthful maps count ↔ ¬(0 < count ∧ LowFreeRun maps 0 count) := by
  constructor
  · exact LowTruthful.away
  · intro elsewhere
    rcases physicalAllocLowPages_cases maps count with ⟨refused, unmet⟩ | ⟨pos, start, allocates⟩
    · refine ⟨iff_of_true ?_ ?_, iff_of_true ?_ unmet, fun pos start run _ => ?_⟩
      · rw [refused]
      · rw [refused]
        exact fun _ _ => rfl
      · rw [refused]
      · rcases unmet with zero | large | none
        · omega
        · have bound := run.1
          omega
        · exact absurd run (none start)
    · have away : start ≠ 0 := by
        rintro rfl
        exact elsewhere ⟨pos, allocates.run⟩
      have ret : (physicalAllocLowPages maps count).1 = start * pageSize := by rw [allocates.taken]
      have nz : (physicalAllocLowPages maps count).1 ≠ 0 := by
        rw [ret]
        simp only [pageSize]
        omega
      have bound := allocates.run.1
      refine ⟨iff_of_false nz fun eq => ?_, iff_of_false nz fun unmet => ?_, fun _ other run first => ?_⟩
      · have marked := eq start (by omega)
        rw [allocates.marks, allocates.run.2 start (Nat.le_refl _) (by omega)] at marked
        simp [pos] at marked
      · rcases unmet with zero | large | none
        · omega
        · omega
        · exact none start allocates.run
      · obtain rfl := allocates.unique run first
        refine ⟨ret, fun frame => ?_⟩
        rw [ret]
        exact allocates.frees pos away frame

/-- All low frames are free, as an E820 map that starts with usable memory leaves them. -/
theorem first_low_frame_reported_as_failure : ¬LowTruthful ⟨fun _ => 0xFF, fun _ => 0⟩ 1 := fun truthful =>
  truthful.away ⟨Nat.one_pos, by decide, fun frame _ upper => by
    have first : frame = 0 := by omega
    rw [first]
    decide⟩

end

def managedFrames : Nat := lowFrames + physFrames

/-- The bit of a managed frame, in whichever bitmap it is. -/
def Bitmaps.taken (maps : Bitmaps) (frame : Nat) : Bool :=
  if frame < lowFrames then maps.usedLow frame else maps.used (frame - lowFrames)

inductive FrameCall where
  | allocPages (count : Nat)
  | allocLowPages (count : Nat)
  | freePages (addr count : Nat)
  | freeLowPages (addr count : Nat)
  | reserve (addr count : Nat)
  | reserveLow (addr count : Nat)

namespace FrameCall

/-- The address that the call returns, if it is an allocation, and the bitmaps after it. -/
def perform (maps : Bitmaps) : FrameCall → Nat × Bitmaps
  | .allocPages count => physicalAllocPages maps count
  | .allocLowPages count => physicalAllocLowPages maps count
  | .freePages addr count => (0, physicalFreePages maps addr count)
  | .freeLowPages addr count => (0, physicalFreeLowPages maps addr count)
  | .reserve addr count => (0, physicalReserve maps addr count)
  | .reserveLow addr count => (0, physicalReserveLow maps addr count)

def performed (maps : Bitmaps) (call : FrameCall) : Option Bitmaps := some (call.perform maps).2

/-- The frame is one of those that the call gives back. -/
def Frees (frame : Nat) : FrameCall → Prop
  | .freePages addr count | .freeLowPages addr count => addr / pageSize ≤ frame ∧ frame < addr / pageSize + count
  | _ => False

/-- The call returns a range that the frame is in. -/
def HandsOut (maps : Bitmaps) (call : FrameCall) (frame : Nat) : Prop :=
  match call with
  | .allocPages count | .allocLowPages count => (call.perform maps).1 ≠ 0 ∧
      (call.perform maps).1 / pageSize ≤ frame ∧ frame < (call.perform maps).1 / pageSize + count
  | _ => False

end FrameCall

/-- The frame shares a byte with `[addr, addr + count * PAGE_SIZE)`. -/
def Overlaps (addr count frame : Nat) : Prop :=
  frame * pageSize < addr + count * pageSize ∧ addr < (frame + 1) * pageSize

/-- The frames that `PhysicalReserve` marks. A part that ends beyond its range is left out as a whole,
an address below 1 MiB is counted from the page it is in, and address zero marks nothing. -/
def Reserves (addr count frame : Nat) : Prop :=
  addr ≠ 0 ∧ count ≠ 0 ∧
  if physBase ≤ addr then add64 (addr / pageSize - lowFrames) count ≤ physFrames ∧
      addr / pageSize ≤ frame ∧ frame < addr / pageSize + count
  else if add64 addr (mul64 count pageSize) ≤ physBase then add64 (addr / pageSize) count ≤ lowFrames ∧
      frame < lowFrames ∧ addr / pageSize ≤ frame ∧ frame < addr / pageSize + count
  else
    let lowCount := (physBase - addr) / pageSize
    (addr / pageSize ≤ frame ∧ frame < addr / pageSize + lowCount) ∨
      (sub64 count lowCount ≤ physFrames ∧ lowFrames ≤ frame ∧ frame < lowFrames + sub64 count lowCount)

/-- In no run after the reservation that gives none of its frames back is one of them handed out. -/
def Withholds (maps : Bitmaps) (addr count : Nat) : Prop :=
  ∀ after, Reaches FrameCall.performed (fun _ call => ∀ frame < managedFrames, Overlaps addr count frame → ¬call.Frees frame)
    (physicalReserve maps addr count) after →
    ∀ call frame, frame < managedFrames → Overlaps addr count frame → ¬FrameCall.HandsOut after call frame

section

variable {maps after : Bitmaps} {addr count frame : Nat}

theorem taken_low (maps : Bitmaps) (bytes : Nat → BitVec 8) (frame : Nat) : ({ maps with low := bytes } : Bitmaps).taken frame =
    if frame < lowFrames then bitmapTest bytes frame else maps.taken frame := by
  unfold Bitmaps.taken
  split <;> rfl

theorem taken_phys (maps : Bitmaps) (bytes : Nat → BitVec 8) (frame : Nat) : ({ maps with phys := bytes } : Bitmaps).taken frame =
    if frame < lowFrames then maps.taken frame else bitmapTest bytes (frame - lowFrames) := by
  unfold Bitmaps.taken
  split <;> rfl

theorem taken_reserveLow (addr count frame : Nat) : (physicalReserveLow maps addr count).taken frame = true ↔
    maps.taken frame = true ∨ (addr ≠ 0 ∧ count ≠ 0 ∧ addr < physBase ∧ add64 (addr / pageSize) count ≤ lowFrames ∧
      frame < lowFrames ∧ addr / pageSize ≤ frame ∧ frame < addr / pageSize + count) := by
  unfold physicalReserveLow
  split
  case isTrue none => exact ⟨.inl, fun either => either.resolve_right fun marked => by omega⟩
  split
  case isTrue high => exact ⟨.inl, fun either => either.resolve_right fun marked => by omega⟩
  split
  case isTrue large => exact ⟨.inl, fun either => either.resolve_right fun marked => by omega⟩
  case isFalse some below fits =>
    rw [taken_low, bitmapTest_setRange]
    unfold Bitmaps.taken
    by_cases isLow : frame < lowFrames
    · rw [if_pos isLow, if_pos isLow, Bool.or_eq_true, decide_eq_true_eq]
      constructor
      · rintro (hin | old)
        · omega
        · exact .inl old
      · rintro (old | ⟨_, _, _, _, _, hin⟩)
        · exact .inr old
        · exact .inl hin
    · grind

theorem taken_reserveManaged (above : physBase ≤ addr) (count frame : Nat) : (reserveManaged maps addr count).taken frame = true ↔
    maps.taken frame = true ∨ (add64 (addr / pageSize - lowFrames) count ≤ physFrames ∧
      addr / pageSize ≤ frame ∧ frame < addr / pageSize + count) := by
  have index : (addr - physBase) / pageSize = addr / pageSize - lowFrames := by
    simp only [physBase, pageSize, lowFrames] at above ⊢
    omega
  have high : lowFrames ≤ addr / pageSize := by
    simp only [physBase, pageSize, lowFrames] at above ⊢
    omega
  unfold reserveManaged
  rw [index]
  split
  case isTrue large => exact ⟨.inl, fun either => either.resolve_right fun marked => by omega⟩
  case isFalse fits =>
    rw [taken_phys, bitmapTest_setRange]
    unfold Bitmaps.taken
    by_cases isLow : frame < lowFrames
    · grind
    · rw [if_neg isLow, if_neg isLow, Bool.or_eq_true, decide_eq_true_eq]
      constructor
      · rintro (hin | old)
        · exact .inr ⟨by omega, by omega, by omega⟩
        · exact .inl old
      · rintro (old | ⟨_, hin⟩)
        · exact .inr old
        · exact .inl (by omega)

theorem taken_physicalReserve (addr count frame : Nat) :
    (physicalReserve maps addr count).taken frame = true ↔ maps.taken frame = true ∨ Reserves addr count frame := by
  unfold physicalReserve Reserves
  by_cases nothing : addr = 0 ∨ count = 0
  · grind
  have asked : addr ≠ 0 ∧ count ≠ 0 := not_or.mp nothing
  rw [if_neg nothing]
  by_cases below : addr < physBase
  · rw [if_pos below, if_neg (Nat.not_le_of_lt below)]
    by_cases ends : add64 addr (mul64 count pageSize) ≤ physBase
    · rw [if_pos ends, if_pos ends, taken_reserveLow]
      refine or_congr_right ⟨?_, ?_⟩
      · omega
      · omega
    · rw [if_neg ends, if_neg ends]
      rw [taken_reserveManaged (Nat.le_refl _), taken_reserveLow, or_assoc]
      have first : physBase / pageSize = lowFrames := rfl
      have fits : add64 (addr / pageSize) ((physBase - addr) / pageSize) = addr / pageSize + (physBase - addr) / pageSize := by
        refine add64_eq ?_
        simp only [physBase, pageSize] at below ⊢
        omega
      have within : addr / pageSize + (physBase - addr) / pageSize ≤ lowFrames := by
        simp only [physBase, pageSize, lowFrames] at below ⊢
        omega
      have rest : sub64 count ((physBase - addr) / pageSize) < 2 ^ 64 := Nat.mod_lt _ (by decide)
      rw [first, Nat.sub_self, fits, add64_eq (by omega), Nat.zero_add]
      refine or_congr_right ⟨?_, ?_⟩
      · rintro (⟨_, _, _, _, _, marked⟩ | marked)
        · exact ⟨asked.1, asked.2, .inl marked⟩
        · exact ⟨asked.1, asked.2, .inr marked⟩
      · rintro ⟨_, _, marked | marked⟩
        · omega
        · exact .inr marked
  · rw [if_neg below, if_pos (Nat.le_of_not_lt below), taken_reserveManaged (Nat.le_of_not_lt below)]
    exact or_congr_right ⟨fun marked => ⟨asked.1, asked.2, marked⟩, fun marked => marked.2.2⟩

end

section

variable {maps after : Bitmaps} {addr count frame : Nat} {call : FrameCall}

theorem handsOut_allocPages : FrameCall.HandsOut maps (.allocPages count) frame ↔ (physicalAllocPages maps count).1 ≠ 0 ∧
    (physicalAllocPages maps count).1 / pageSize ≤ frame ∧
    frame < (physicalAllocPages maps count).1 / pageSize + count := .rfl

theorem handsOut_allocLowPages : FrameCall.HandsOut maps (.allocLowPages count) frame ↔
    (physicalAllocLowPages maps count).1 ≠ 0 ∧ (physicalAllocLowPages maps count).1 / pageSize ≤ frame ∧
    frame < (physicalAllocLowPages maps count).1 / pageSize + count := .rfl

theorem taken_allocPages (count frame : Nat) : (physicalAllocPages maps count).2.taken frame = true ↔
    maps.taken frame = true ∨ FrameCall.HandsOut maps (.allocPages count) frame := by
  rw [handsOut_allocPages]
  rcases physicalAllocPages_cases maps count with ⟨refused, _⟩ | ⟨start, pos, run, _, ht⟩
  · grind
  · have address : (physBase + start * pageSize) / pageSize = lowFrames + start := by
      simp only [physBase, pageSize, lowFrames]
      omega
    have nz : physBase + start * pageSize ≠ 0 := by
      simp only [physBase]
      omega
    rw [ht]
    rw [taken_phys, bitmapTest_setRange, address]
    unfold Bitmaps.taken
    by_cases isLow : frame < lowFrames
    · grind
    · rw [if_neg isLow, if_neg isLow, Bool.or_eq_true, decide_eq_true_eq]
      constructor
      · rintro (hin | old)
        · exact .inr ⟨nz, by omega⟩
        · exact .inl old
      · rintro (old | ⟨_, hin⟩)
        · exact .inr old
        · exact .inl (by omega)

theorem taken_allocLowPages (count frame : Nat) (kept : maps.taken frame = true) :
    (physicalAllocLowPages maps count).2.taken frame = true := by
  rcases physicalAllocLowPages_cases maps count with ⟨refused, _⟩ | ⟨_, start, allocates⟩
  · rw [refused]
    exact kept
  · rw [allocates.taken, taken_low, bitmapTest_setRange]
    split
    case isTrue isLow =>
      unfold Bitmaps.taken at kept
      rw [if_pos isLow] at kept
      rw [show bitmapTest maps.low frame = true from kept, Bool.or_true]
    case isFalse => exact kept

theorem FrameCall.HandsOut.free (handed : FrameCall.HandsOut maps call frame) : maps.taken frame = false := by
  cases call with
  | allocPages count =>
    obtain ⟨nz, hin⟩ := handsOut_allocPages.mp handed
    rcases physicalAllocPages_cases maps count with ⟨refused, _⟩ | ⟨start, pos, run, _, ht⟩
    · exact absurd (congrArg Prod.fst refused) nz
    · rw [ht] at hin
      have address : (physBase + start * pageSize) / pageSize = lowFrames + start := by
        simp only [physBase, pageSize, lowFrames]
        omega
      rw [address] at hin
      unfold Bitmaps.taken
      rw [if_neg (by omega)]
      exact run.2 (frame - lowFrames) (by omega) (by omega)
  | allocLowPages count =>
    obtain ⟨nz, hin⟩ := handsOut_allocLowPages.mp handed
    rcases physicalAllocLowPages_cases maps count with ⟨refused, _⟩ | ⟨_, start, allocates⟩
    · exact absurd (congrArg Prod.fst refused) nz
    · rw [allocates.taken] at hin
      rw [Nat.mul_div_cancel _ (show 0 < pageSize by decide)] at hin
      have bound := allocates.run.1
      unfold Bitmaps.taken
      rw [if_pos (by omega)]
      exact allocates.run.2 frame hin.1 hin.2
  | freePages | freeLowPages | reserve | reserveLow => exact handed.elim

theorem taken_freeLowPages (kept : maps.taken frame = true) (ne : ¬(FrameCall.freeLowPages addr count).Frees frame) :
    (physicalFreeLowPages maps addr count).taken frame = true := by
  unfold physicalFreeLowPages
  split
  · exact kept
  split
  · exact kept
  split
  · exact kept
  rw [taken_low, bitmapTest_clearRange]
  split
  case isTrue isLow =>
    unfold Bitmaps.taken at kept
    rw [if_pos isLow] at kept
    rw [show bitmapTest maps.low frame = true from kept, Bool.and_true, Bool.not_eq_true']
    exact decide_eq_false ne
  case isFalse => exact kept

theorem FrameCall.keeps (kept : maps.taken frame = true) (ne : ¬call.Frees frame) : (call.perform maps).2.taken frame = true := by
  cases call with
  | allocPages count => exact (taken_allocPages count frame).mpr (.inl kept)
  | allocLowPages count => exact taken_allocLowPages count frame kept
  | freeLowPages addr count => exact taken_freeLowPages kept ne
  | reserve addr count => exact (taken_physicalReserve addr count frame).mpr (.inl kept)
  | reserveLow addr count => exact (taken_reserveLow addr count frame).mpr (.inl kept)
  | freePages addr count =>
    change (physicalFreePages maps addr count).taken frame = true
    unfold physicalFreePages
    split
    · exact kept
    split
    · exact taken_freeLowPages kept ne
    split
    · exact kept
    case isFalse high _ =>
      rw [taken_phys, bitmapTest_clearRange]
      split
      · exact kept
      case isFalse isHigh =>
        unfold Bitmaps.taken at kept
        rw [if_neg isHigh] at kept
        unfold FrameCall.Frees at ne
        rw [show bitmapTest maps.phys (frame - lowFrames) = true from kept, Bool.and_true, Bool.not_eq_true']
        refine decide_eq_false fun hin => ne ?_
        simp only [physBase, pageSize, lowFrames] at hin high isHigh ⊢
        omega

/-- The request for a single frame of the range that the frame is in. -/
def FrameCall.single (frame : Nat) : FrameCall := if frame < lowFrames then .allocLowPages 1 else .allocPages 1

/-- A request for one frame takes the first free frame of its range. -/
structure TakesFirst (maps : Bitmaps) (frame first : Nat) : Prop where
  before : first ≤ frame
  side : first < lowFrames ↔ frame < lowFrames
  free : maps.taken first = false
  least : ∀ earlier < first, (earlier < lowFrames ↔ frame < lowFrames) → maps.taken earlier = true
  marks : ∀ other, ((FrameCall.single frame).perform maps).2.taken other = true ↔ maps.taken other = true ∨ other = first
  returned : first ≠ 0 → FrameCall.HandsOut maps (.single frame) first

theorem takesFirst_low (isLow : frame < lowFrames) (free : maps.taken frame = false) : ∃ first, TakesFirst maps frame first := by
  have single : FrameCall.single frame = .allocLowPages 1 := if_pos isLow
  have isFree : maps.usedLow frame = false := by
    unfold Bitmaps.taken at free
    rwa [if_pos isLow] at free
  have runs : ∀ other < lowFrames, maps.usedLow other = false → LowFreeRun maps other 1 := by
    intro other lt clear
    refine ⟨lt, fun u lower upper => ?_⟩
    obtain rfl : u = other := by omega
    exact clear
  have run := runs frame isLow isFree
  rcases physicalAllocLowPages_cases maps 1 with ⟨_, zero | large | none⟩ | ⟨_, first, allocates⟩
  · exact absurd zero (by decide)
  · exact absurd large (by decide)
  · exact absurd run (none frame)
  have bound := allocates.run.1
  have pre : first ≤ frame := Nat.le_of_not_lt fun after => allocates.least frame after run
  have clear := allocates.run.2 first (Nat.le_refl _) (by omega)
  have firstLow : first < lowFrames := by omega
  refine ⟨first, pre, iff_of_true firstLow isLow, ?_, fun earlier smaller side => ?_, fun other => ?_, fun nz => ?_⟩
  · unfold Bitmaps.taken
    rwa [if_pos firstLow]
  · have lt := side.mpr isLow
    unfold Bitmaps.taken
    rw [if_pos lt]
    exact Bool.eq_true_of_not_eq_false fun clear => allocates.least earlier smaller (runs earlier lt clear)
  · rw [single]
    change (physicalAllocLowPages maps 1).2.taken other = true ↔ _
    rw [allocates.taken, taken_low, bitmapTest_setRange]
    unfold Bitmaps.taken
    by_cases lt : other < lowFrames
    · rw [if_pos lt, if_pos lt, Bool.or_eq_true, decide_eq_true_eq]
      exact or_comm.trans (or_congr_right (by omega))
    · grind
  · rw [single, handsOut_allocLowPages, allocates.taken]
    rw [Nat.mul_div_cancel _ (show 0 < pageSize by decide)]
    simp only [pageSize]
    omega

theorem takesFirst_high (isHigh : ¬frame < lowFrames) (managed : frame < managedFrames) (free : maps.taken frame = false) :
    ∃ first, TakesFirst maps frame first := by
  have single : FrameCall.single frame = .allocPages 1 := if_neg isHigh
  have runs : ∀ other, ¬other < lowFrames → other < managedFrames → maps.taken other = false →
      FreeRun maps (other - lowFrames) 1 := by
    intro other high lt clear
    unfold managedFrames at lt
    refine ⟨by omega, fun u lower upper => ?_⟩
    have eq : u = other - lowFrames := by omega
    unfold Bitmaps.taken at clear
    rwa [if_neg high, ← eq] at clear
  have run := runs frame isHigh managed free
  rcases physicalAllocPages_cases maps 1 with ⟨_, zero | none⟩ | ⟨start, _, firstRun, least, ht⟩
  · exact absurd zero (by decide)
  · exact absurd run (none _)
  have pre : start ≤ frame - lowFrames := Nat.le_of_not_lt fun after => least _ after run
  have clear := firstRun.2 start (Nat.le_refl _) (by omega)
  have high : ¬lowFrames + start < lowFrames := by omega
  have handed : ∀ other, FrameCall.HandsOut maps (.allocPages 1) other ↔ other = lowFrames + start := by
    intro other
    rw [handsOut_allocPages, ht]
    simp only [physBase, pageSize, lowFrames]
    omega
  refine ⟨lowFrames + start, by omega, iff_of_false high isHigh, ?_, fun earlier smaller side => ?_, fun other => ?_, fun _ => ?_⟩
  · unfold Bitmaps.taken
    rw [if_neg high, Nat.add_sub_cancel_left]
    exact clear
  · have earlierHigh : ¬earlier < lowFrames := fun low => isHigh (side.mp low)
    refine Bool.eq_true_of_not_eq_false fun clear => ?_
    exact least (earlier - lowFrames) (by omega) (runs earlier earlierHigh (by omega) clear)
  · rw [single]
    change (physicalAllocPages maps 1).2.taken other = true ↔ _
    rw [taken_allocPages, handed]
  · rw [single, handed]

theorem takesFirst (managed : frame < managedFrames) (free : maps.taken frame = false) : ∃ first, TakesFirst maps frame first := by
  by_cases isLow : frame < lowFrames
  · exact takesFirst_low isLow free
  · exact takesFirst_high isLow managed free

theorem reaches_before {allowed : Bitmaps → FrameCall → Prop} {bound : Nat} (managed : frame < managedFrames)
    (free : maps.taken frame = false) (allocates : ∀ maps, allowed maps (.single frame)) (pre : bound ≤ frame) :
    ∃ after, Reaches FrameCall.performed allowed maps after ∧ after.taken frame = false ∧
      ∀ earlier < bound, (earlier < lowFrames ↔ frame < lowFrames) → after.taken earlier = true := by
  induction bound with
  | zero => exact ⟨maps, .start, free, fun earlier none => absurd none (Nat.not_lt_zero _)⟩
  | succ bound ih =>
    obtain ⟨mid, hr, stillFree, marked⟩ := ih (Nat.le_of_succ_le pre)
    by_cases takes : (bound < lowFrames ↔ frame < lowFrames) ∧ mid.taken bound = false
    · obtain ⟨first, takesFirst⟩ := takesFirst managed stillFree
      have notLater : ¬bound < first := by
        intro smaller
        have ht := takesFirst.least bound smaller takes.1
        rw [takes.2] at ht
        exact nomatch ht
      have notEarlier : ¬first < bound := by
        intro smaller
        have ht := marked first smaller takesFirst.side
        rw [takesFirst.free] at ht
        exact nomatch ht
      obtain rfl : first = bound := by omega
      refine ⟨_, .next (.single frame) hr (allocates _) rfl, ?_, fun earlier smaller side => ?_⟩
      · refine Bool.eq_false_iff.mpr fun ht => ?_
        rcases (takesFirst.marks frame).mp ht with old | eq
        · rw [stillFree] at old
          exact nomatch old
        · omega
      · refine (takesFirst.marks earlier).mpr ?_
        by_cases h : earlier = first
        · exact .inr h
        · exact .inl (marked earlier (by omega) side)
    · refine ⟨mid, hr, stillFree, fun earlier smaller side => ?_⟩
      by_cases h : earlier = bound
      · grind
      · exact marked earlier (by omega) side

theorem reaches_handsOut {allowed : Bitmaps → FrameCall → Prop} (managed : frame < managedFrames) (pos : 0 < frame)
    (free : maps.taken frame = false) (allocates : ∀ maps, allowed maps (.single frame)) :
    ∃ after, Reaches FrameCall.performed allowed maps after ∧ FrameCall.HandsOut after (.single frame) frame := by
  obtain ⟨after, hr, stillFree, marked⟩ := reaches_before managed free allocates (Nat.le_refl frame)
  obtain ⟨first, takes⟩ := takesFirst managed stillFree
  have notEarlier : ¬first < frame := by
    intro smaller
    have ht := marked first smaller takes.side
    rw [takes.free] at ht
    exact nomatch ht
  have pre := takes.before
  obtain rfl : first = frame := by omega
  exact ⟨after, hr, takes.returned (by omega)⟩

theorem Withholds.marked (withholds : Withholds maps addr count) (managed : frame < managedFrames) (pos : 0 < frame)
    (overlaps : Overlaps addr count frame) : maps.taken frame = true ∨ Reserves addr count frame := by
  refine (taken_physicalReserve addr count frame).mp (Bool.eq_true_of_not_eq_false fun free => ?_)
  have allocates : ∀ other, ¬(FrameCall.single frame).Frees other := by
    intro other frees
    unfold FrameCall.single at frees
    split at frees <;> exact frees
  obtain ⟨after, hr, handed⟩ := @reaches_handsOut _ frame
    (fun _ call => ∀ frame < managedFrames, Overlaps addr count frame → ¬call.Frees frame) managed pos free
    fun _ other _ _ => allocates other
  exact withholds after hr _ frame managed overlaps handed

/-- A reservation withholds its frames from every later allocation exactly if each of them was in use
or is marked. The frame at address zero is never returned. -/
theorem physicalReserve_withholds_iff (maps : Bitmaps) (addr count : Nat) : Withholds maps addr count ↔
    ∀ frame < managedFrames, 0 < frame → Overlaps addr count frame → maps.taken frame = true ∨ Reserves addr count frame := by
  constructor
  · exact fun withholds frame managed pos overlaps => withholds.marked managed pos overlaps
  · intro marked after hr call frame managed overlaps handed
    have free := handed.free
    have pos : 0 < frame := by
      refine Nat.pos_of_ne_zero fun zero => ?_
      cases call with
      | allocPages count =>
        obtain ⟨nz, hin⟩ := handsOut_allocPages.mp handed
        rcases physicalAllocPages_cases after count with ⟨refused, _⟩ | ⟨start, _, _, _, ht⟩
        · exact absurd (congrArg Prod.fst refused) nz
        · rw [ht] at hin
          simp only [physBase, pageSize] at hin
          omega
      | allocLowPages count =>
        obtain ⟨nz, hin⟩ := handsOut_allocLowPages.mp handed
        rcases physicalAllocLowPages_cases after count with ⟨refused, _⟩ | ⟨_, start, allocates⟩
        · exact absurd (congrArg Prod.fst refused) nz
        · rw [allocates.taken] at hin nz
          simp only [pageSize] at hin nz
          omega
      | freePages | freeLowPages | reserve | reserveLow => exact handed.elim
    have kept : after.taken frame = true := by
      refine hr.invariant (fun maps => maps.taken frame = true) ?_ fun mid op next old allowed hs => ?_
      · exact (taken_physicalReserve addr count frame).mpr (marked frame managed pos overlaps)
      · cases hs
        exact FrameCall.keeps old (allowed frame managed overlaps)
    rw [kept] at free
    cases free

/-- One page from the middle of a frame on reaches into the next frame, which stays free. -/
theorem unaligned_reservation_misses : ¬Withholds ⟨fun _ => 0, fun _ => 0⟩ 0x100800 1 := by
  intro withholds
  rcases @Withholds.marked _ _ _ 257 withholds (by decide) (by decide) ⟨by decide, by decide⟩ with ht | reserves
  · exact absurd ht (by decide)
  · obtain ⟨_, _, marked⟩ := reserves
    exact absurd marked.2.2 (by decide)

end

end RosKernel.Memory
