import RosKernel.Library.FirstFit
import RosKernel.Memory.Word

/-! The bitmap allocator of physical frames, `kernel/mm/physicalalloc.cpp`.

One bit a frame, set when the frame is in use. `phys_bitmap` covers the managed
range that starts at `PHYS_BASE`, `low_phys_bitmap` the frames below it. Bytes
past an array's end are the memory that follows it.
-/

set_option autoImplicit false

namespace RosKernel.Memory

open Library

def physBase : Nat := 0x00100000
def physFrames : Nat := 262144
def lowFrames : Nat := physBase / pageSize

structure Bitmaps where
  phys : Nat → BitVec 8
  low : Nat → BitVec 8

section

variable (bytes : Nat → BitVec 8) (idx : Nat)

def bitmapSet : Nat → BitVec 8 :=
  Function.update bytes (idx >>> 3) (bytes (idx >>> 3) ||| 1#8 <<< (idx &&& 7))

def bitmapClear : Nat → BitVec 8 :=
  Function.update bytes (idx >>> 3) (bytes (idx >>> 3) &&& ~~~(1#8 <<< (idx &&& 7)))

def bitmapTest : Bool := (bytes (idx >>> 3) >>> (idx &&& 7)) &&& 1#8 == 1#8

end

theorem bitmapTest_eq (bytes : Nat → BitVec 8) (idx : Nat) :
    bitmapTest bytes idx = (bytes (idx / 8)).getLsbD (idx % 8) := by
  unfold bitmapTest
  rw [Nat.shiftRight_eq_div_pow, show (7 : Nat) = 2 ^ 3 - 1 by decide, Nat.and_two_pow_sub_one_eq_mod]
  generalize bytes (idx / 2 ^ 3) = byte
  have lsb : ((byte >>> (idx % 2 ^ 3)) &&& 1#8) = if byte.getLsbD (idx % 8) then 1#8 else 0#8 := by
    apply BitVec.eq_of_getLsbD_eq
    intro i bound
    by_cases zero : i = 0
    · subst zero
      by_cases bit : byte.getLsbD (idx % 8) <;> simp [bit]
    · by_cases bit : byte.getLsbD (idx % 8) <;> simp [bit, zero]
  rw [lsb]
  by_cases bit : byte.getLsbD (idx % 8) <;> simp [bit]

private theorem bit_position (idx : Nat) : idx >>> 3 = idx / 8 ∧ idx &&& 7 = idx % 8 := by
  rw [Nat.shiftRight_eq_div_pow, show (7 : Nat) = 2 ^ 3 - 1 by decide, Nat.and_two_pow_sub_one_eq_mod]
  exact ⟨rfl, rfl⟩

private theorem mask_bit {i k : Nat} (lt : k < 8) (bound : i < 8) :
    (1#8 <<< k).getLsbD i = decide (i = k) := by
  by_cases eq : i = k
  · subst eq; simp [bound]
  · by_cases pre : i < k
    · simp [pre, eq]
    · simp [eq, show i - k ≠ 0 by omega]

private theorem same_bit {idx other : Nat} (byte : other / 8 = idx / 8) : decide (other % 8 = idx % 8) = decide (other = idx) := by
  apply decide_eq_decide.mpr
  constructor <;> omega

@[simp] theorem bitmapTest_set (bytes : Nat → BitVec 8) (idx other : Nat) :
    bitmapTest (bitmapSet bytes idx) other = (decide (other = idx) || bitmapTest bytes other) := by
  rw [bitmapTest_eq, bitmapTest_eq]
  unfold bitmapSet
  rw [(bit_position idx).1, (bit_position idx).2]
  by_cases byte : other / 8 = idx / 8
  · rw [byte, Function.update_self, BitVec.getLsbD_or, mask_bit (by omega) (by omega), Bool.or_comm, same_bit byte]
  · have ne : other ≠ idx := fun eq => byte (by rw [eq])
    rw [Function.update_of_ne byte, decide_eq_false ne, Bool.false_or]

@[simp] theorem bitmapTest_clear (bytes : Nat → BitVec 8) (idx other : Nat) :
    bitmapTest (bitmapClear bytes idx) other = (!decide (other = idx) && bitmapTest bytes other) := by
  rw [bitmapTest_eq, bitmapTest_eq]
  unfold bitmapClear
  rw [(bit_position idx).1, (bit_position idx).2]
  by_cases byte : other / 8 = idx / 8
  · rw [byte, Function.update_self, BitVec.getLsbD_and, BitVec.getLsbD_not, mask_bit (by omega) (by omega),
      Bool.and_comm]
    have bound : other % 8 < 8 := Nat.mod_lt _ (by decide)
    simp [same_bit byte, bound]
  · have ne : other ≠ idx := fun eq => byte (by rw [eq])
    rw [Function.update_of_ne byte, decide_eq_false ne, Bool.not_false, Bool.true_and]

/-- The loops over `idx .. idx + count - 1`. -/
def bitmapSetRange (bytes : Nat → BitVec 8) (idx : Nat) : Nat → Nat → BitVec 8
  | 0 => bytes
  | count + 1 => bitmapSet (bitmapSetRange bytes idx count) (idx + count)

def bitmapClearRange (bytes : Nat → BitVec 8) (idx : Nat) : Nat → Nat → BitVec 8
  | 0 => bytes
  | count + 1 => bitmapClear (bitmapClearRange bytes idx count) (idx + count)

theorem bitmapTest_setRange (bytes : Nat → BitVec 8) (idx count other : Nat) :
    bitmapTest (bitmapSetRange bytes idx count) other =
      (decide (idx ≤ other ∧ other < idx + count) || bitmapTest bytes other) := by
  induction count with
  | zero => simp [bitmapSetRange, show ¬ (idx ≤ other ∧ other < idx) by omega]
  | succ count ih =>
    rw [bitmapSetRange, bitmapTest_set, ih, ← Bool.or_assoc]
    congr 1
    rw [← Bool.decide_or]
    exact decide_eq_decide.mpr (by omega)

theorem bitmapTest_clearRange (bytes : Nat → BitVec 8) (idx count other : Nat) :
    bitmapTest (bitmapClearRange bytes idx count) other =
      (!decide (idx ≤ other ∧ other < idx + count) && bitmapTest bytes other) := by
  induction count with
  | zero => simp [bitmapClearRange, show ¬ (idx ≤ other ∧ other < idx) by omega]
  | succ count ih =>
    rw [bitmapClearRange, bitmapTest_clear, ih, ← Bool.and_assoc, ← Bool.not_or, ← Bool.decide_or]
    congr 2
    exact decide_eq_decide.mpr (by omega)

/-- The search loop shared by `PhysicalAllocPages` and `PhysicalAllocLowPages`. -/
def findFrames (bytes : Nat → BitVec 8) (frames count : Nat) : Option Nat :=
  scan (fun idx => !bitmapTest bytes idx) count frames 0 0

section

variable (maps : Bitmaps)
include maps

def physicalAllocLowPages (count : Nat) : Nat × Bitmaps :=
  if count = 0 ∨ count > lowFrames then (0, maps)
  else match findFrames maps.low lowFrames count with
    | some start => (start * pageSize, { maps with low := bitmapSetRange maps.low start count })
    | none => (0, maps)

def physicalFreeLowPages (addr count : Nat) : Bitmaps :=
  if addr = 0 ∨ count = 0 then maps
  else if addr ≥ physBase then maps
  else if add64 (addr / pageSize) count > lowFrames then maps
  else { maps with low := bitmapClearRange maps.low (addr / pageSize) count }

def physicalReserveLow (addr count : Nat) : Bitmaps :=
  if addr = 0 ∨ count = 0 then maps
  else if addr ≥ physBase then maps
  else if add64 (addr / pageSize) count > lowFrames then maps
  else { maps with low := bitmapSetRange maps.low (addr / pageSize) count }

def physicalAllocPages (count : Nat) : Nat × Bitmaps :=
  if count = 0 ∨ count > physFrames then (0, maps)
  else match findFrames maps.phys physFrames count with
    | some start => (physBase + start * pageSize, { maps with phys := bitmapSetRange maps.phys start count })
    | none => (0, maps)

def physicalFreePages (addr count : Nat) : Bitmaps :=
  if addr = 0 ∨ count = 0 then maps
  else if addr < physBase then physicalFreeLowPages maps addr count
  else if add64 ((addr - physBase) / pageSize) count > physFrames then maps
  else { maps with phys := bitmapClearRange maps.phys ((addr - physBase) / pageSize) count }

/-- The part of `PhysicalReserve` for the managed region. -/
def reserveManaged (addr count : Nat) : Bitmaps :=
  if add64 ((addr - physBase) / pageSize) count > physFrames then maps
  else { maps with phys := bitmapSetRange maps.phys ((addr - physBase) / pageSize) count }

def physicalReserve (addr count : Nat) : Bitmaps :=
  if addr = 0 ∨ count = 0 then maps
  else if addr < physBase then
    if add64 addr (mul64 count pageSize) ≤ physBase then physicalReserveLow maps addr count
    else
      let lowCount := (physBase - addr) / pageSize
      reserveManaged (physicalReserveLow maps addr lowCount) physBase (sub64 count lowCount)
  else reserveManaged maps addr count

end

section

variable (maps : Bitmaps)
include maps

/-- A frame of the managed range is in use. -/
def Bitmaps.used (frame : Nat) : Bool := bitmapTest maps.phys frame

/-- `count` consecutive managed frames from `start` on are free. -/
def FreeRun (start count : Nat) : Prop :=
  start + count ≤ physFrames ∧ ∀ frame, start ≤ frame → frame < start + count → maps.used frame = false

theorem freeRun_iff (start count : Nat) : FreeRun maps start count ↔
      start + count ≤ physFrames ∧ IsRun (fun idx => !bitmapTest maps.phys idx) start count := by
  refine and_congr_right fun _ => ⟨fun clear i lt => ?_, fun isRun frame low high => ?_⟩
  · simp only [Bool.not_eq_true']
    exact clear (start + i) (by omega) (by omega)
  · have bit := isRun (frame - start) (by omega)
    rw [show start + (frame - start) = frame by omega] at bit
    simpa [Bitmaps.used] using bit

/-- Everything `PhysicalAllocPages` can do: refuse and change nothing when no run
fits, or take the least free run. -/
theorem physicalAllocPages_cases (count : Nat) : (physicalAllocPages maps count = (0, maps) ∧
      (count = 0 ∨ ∀ start, ¬ FreeRun maps start count)) ∨
    ∃ start, 0 < count ∧ FreeRun maps start count ∧
      (∀ earlier, earlier < start → ¬ FreeRun maps earlier count) ∧
      physicalAllocPages maps count = (physBase + start * pageSize,
        { maps with phys := bitmapSetRange maps.phys start count }) := by
  unfold physicalAllocPages
  split
  next out =>
    refine .inl ⟨rfl, ?_⟩
    rcases out with zero | large
    · exact .inl zero
    · exact .inr fun start run => by have := run.1; omega
  next hin =>
    have pos : 0 < count := by omega
    cases hf : findFrames maps.phys physFrames count with
    | none =>
      refine .inl ⟨rfl, .inr fun start run => ?_⟩
      rw [freeRun_iff] at run
      exact (scan_eq_none_iff pos).mp hf start run.1 run.2
    | some start =>
      obtain ⟨isRun, bound, least⟩ := (scan_eq_some_iff pos).mp hf
      refine .inr ⟨start, pos, (freeRun_iff _ _ _).mpr ⟨bound, isRun⟩, fun earlier pre run => ?_, rfl⟩
      exact least earlier pre ((freeRun_iff _ _ _).mp run).2

theorem used_setRange (start count frame : Nat) :
    ({ maps with phys := bitmapSetRange maps.phys start count } : Bitmaps).used frame =
      (decide (start ≤ frame ∧ frame < start + count) || maps.used frame) :=
  bitmapTest_setRange _ _ _ _

theorem used_clearRange (start count frame : Nat) :
    ({ maps with phys := bitmapClearRange maps.phys start count } : Bitmaps).used frame =
      (!decide (start ≤ frame ∧ frame < start + count) && maps.used frame) :=
  bitmapTest_clearRange _ _ _ _

end

theorem used_physicalFreePages {maps : Bitmaps} {start count : Nat} (bound : start + count ≤ physFrames)
    (frame : Nat) :
    (physicalFreePages maps (physBase + start * pageSize) count).used frame =
      (!decide (start ≤ frame ∧ frame < start + count) && maps.used frame) := by
  have index : (physBase + start * pageSize - physBase) / pageSize = start := by
    simp only [physBase, pageSize]; omega
  have fits : add64 start count = start + count := add64_eq (by simp only [physFrames] at bound; omega)
  unfold physicalFreePages
  by_cases zero : count = 0
  · subst zero
    simp [show ¬ (start ≤ frame ∧ frame < start) by omega]
  · rw [if_neg (by simp only [physBase]; omega), if_neg (by simp only [physBase]; omega), index, fits,
      if_neg (by omega)]
    exact used_clearRange _ _ _ _

end RosKernel.Memory
