import RosKernel.Memory.Reservations
import RosKernel.Memory.Virtual

/-! What `PageAlloc::Physical` makes of the boot loader's memory map. -/

set_option autoImplicit false

namespace RosKernel.Memory

open Library List

/-- An entry with the type that the virtual allocator does not look at. -/
structure BootMemEntry extends BootMemRegion where
  type : UInt32

structure BootFramebufferInfo where
  address : UInt64
  pitch : UInt32
  height : UInt32

/-- `regions` are the first `memmap.count` entries. -/
structure BootInfo where
  framebuffer : BootFramebufferInfo
  regions : List BootMemEntry
  hasFramebuffer : Bool
  hasMemmap : Bool

def managedEnd : Nat := physBase + physFrames * pageSize

/-- The part of a region that is in the main range is enabled. -/
def enableManaged (maps : Bitmaps) (start stop : Nat) : Bitmaps :=
  if stop > physBase then
    let s := if start < physBase then physBase else start
    if s < managedEnd then
      let e := pageMask (if stop > managedEnd then managedEnd else stop)
      let s := pageAlign s
      if e > s then
        let first := (s - physBase) / pageSize
        { maps with phys := bitmapClearRange maps.phys first ((e - physBase) / pageSize - first) }
      else maps
    else maps
  else maps

/-- The part of a region that is below 1 MiB is enabled. -/
def enableLow (maps : Bitmaps) (start stop : Nat) : Bitmaps :=
  if start < physBase then
    let lo := pageAlign start
    let hi := pageMask (if stop > physBase then physBase else stop)
    if hi > lo then { maps with low := bitmapClearRange maps.low (lo / pageSize) (hi / pageSize - lo / pageSize) }
    else maps
  else maps

def enableRegion (maps : Bitmaps) (region : BootMemEntry) : Bitmaps :=
  if region.type ≠ 1 ∨ region.length = 0 then maps
  else
    let start := region.base.toNat
    let stop := add64 start region.length.toNat
    enableLow (enableManaged maps start stop) start stop

def reserveFramebuffer (maps : Bitmaps) (framebuffer : BootFramebufferInfo) : Bitmaps :=
  let fb := framebuffer.address.toNat
  let fbSize := mul64 framebuffer.pitch.toNat framebuffer.height.toNat
  let fbLo := pageMask fb
  let fbHi := pageAlign (add64 fb fbSize)
  if fbLo < managedEnd ∧ fbHi > physBase then
    let fbLo := if fbLo < physBase then physBase else fbLo
    let fbHi := if fbHi > managedEnd then managedEnd else fbHi
    let first := (fbLo - physBase) / pageSize
    { maps with phys := bitmapSetRange maps.phys first ((fbHi - physBase) / pageSize - first) }
  else maps

/-- The bytes of an array up to its end. -/
def fillBytes (bytes : Nat → BitVec 8) (size : Nat) (value : BitVec 8) (i : Nat) : BitVec 8 :=
  if i < size then value else bytes i

/-- `PageAlloc::Physical`; without a memory map the whole main range counts as free. -/
def physicalInit (maps : Bitmaps) (info : Option BootInfo) : Bitmaps :=
  let reserved : Bitmaps :=
    ⟨fillBytes maps.phys ((physFrames + 7) / 8) 0xFF, fillBytes maps.low ((lowFrames + 7) / 8) 0xFF⟩
  let mapped := match info with
    | some info => if info.hasMemmap then info.regions.foldl enableRegion reserved
      else { reserved with phys := fillBytes reserved.phys ((physFrames + 7) / 8) 0 }
    | none => { reserved with phys := fillBytes reserved.phys ((physFrames + 7) / 8) 0 }
  match info with
  | some info => if info.hasFramebuffer then reserveFramebuffer mapped info.framebuffer else mapped
  | none => mapped

namespace BootMemEntry

section

variable (region : BootMemEntry)
include region

/-- The end of the region, which may be beyond the last address. -/
def stop : Nat := region.base.toNat + region.length.toNat

/-- The frame lies wholly inside the region. -/
def Contains (frame : Nat) : Prop :=
  region.base.toNat ≤ frame * pageSize ∧ (frame + 1) * pageSize ≤ region.stop

/-- The frame has a byte in common with the region. -/
def Meets (frame : Nat) : Prop :=
  max region.base.toNat (frame * pageSize) < min region.stop ((frame + 1) * pageSize)

/-- The code takes the frame for usable on account of this entry. -/
def Enables (frame : Nat) : Prop :=
  region.type = 1 ∧ region.stop < 2 ^ 64 ∧ region.Contains frame

end

end BootMemEntry

namespace BootFramebufferInfo

section

variable (framebuffer : BootFramebufferInfo)
include framebuffer

def stop : Nat :=
  framebuffer.address.toNat + framebuffer.pitch.toNat * framebuffer.height.toNat

def Meets (frame : Nat) : Prop :=
  max framebuffer.address.toNat (frame * pageSize) < min framebuffer.stop ((frame + 1) * pageSize)

/-- The frame is between the ends of the framebuffer, each rounded outwards. -/
def Covers (frame : Nat) : Prop :=
  framebuffer.address.toNat / pageSize ≤ frame ∧ frame < (framebuffer.stop + 4095) / pageSize

end

end BootFramebufferInfo

section

variable {maps : Bitmaps} {frame : Nat}

theorem taken_clearRange_phys (first count : Nat) (frame : Nat) :
    ({ maps with phys := bitmapClearRange maps.phys first count } : Bitmaps).taken frame = true ↔
      maps.taken frame = true ∧ ¬(lowFrames + first ≤ frame ∧ frame < lowFrames + first + count) := by
  rw [taken_phys, bitmapTest_clearRange]
  unfold Bitmaps.taken
  by_cases isLow : frame < lowFrames
  · grind
  · rw [if_neg isLow, if_neg isLow, Bool.and_eq_true, Bool.not_eq_true', decide_eq_false_iff_not, and_comm]
    exact and_congr_right fun _ => not_congr (by omega)

theorem taken_clearRange_low (first count : Nat) (frame : Nat) :
    ({ maps with low := bitmapClearRange maps.low first count } : Bitmaps).taken frame = true ↔
      maps.taken frame = true ∧ ¬(frame < lowFrames ∧ first ≤ frame ∧ frame < first + count) := by
  rw [taken_low, bitmapTest_clearRange]
  unfold Bitmaps.taken
  by_cases isLow : frame < lowFrames
  · rw [if_pos isLow, if_pos isLow, Bool.and_eq_true, Bool.not_eq_true', decide_eq_false_iff_not, and_comm]
    exact and_congr_right fun _ => not_congr (by omega)
  · grind

theorem taken_setRange_phys (first count : Nat) (frame : Nat) :
    ({ maps with phys := bitmapSetRange maps.phys first count } : Bitmaps).taken frame = true ↔
      maps.taken frame = true ∨ (lowFrames + first ≤ frame ∧ frame < lowFrames + first + count) := by
  rw [taken_phys, bitmapTest_setRange]
  unfold Bitmaps.taken
  by_cases isLow : frame < lowFrames
  · grind
  · rw [if_neg isLow, if_neg isLow, Bool.or_eq_true, decide_eq_true_eq, or_comm]
    exact or_congr_right (by omega)

/-- What is marked and stays marked, because the range has no such frame. -/
theorem kept_of_not {hin : Prop} (never : ¬hin) : maps.taken frame = true ↔ maps.taken frame = true ∧ ¬hin :=
  ⟨fun old => ⟨old, never⟩, And.left⟩

theorem taken_enableManaged {start stop : Nat} (word : stop < 2 ^ 64) (managed : frame < managedFrames) :
    (enableManaged maps start stop).taken frame = true ↔ maps.taken frame = true ∧
      ¬(lowFrames ≤ frame ∧ start ≤ frame * pageSize ∧ (frame + 1) * pageSize ≤ stop) := by
  have lower : (if start < physBase then physBase else start) = max physBase start := by split <;> omega
  have upper : (if stop > managedEnd then managedEnd else stop) = min stop managedEnd := by split <;> omega
  unfold enableManaged
  dsimp only
  rw [lower, upper]
  have base : physBase = 1048576 := rfl
  have ends : managedEnd = 1074790400 := rfl
  have size : pageSize = 4096 := rfl
  have low : lowFrames = 256 := rfl
  have frames : managedFrames = 262400 := rfl
  rw [size]
  split
  case isFalse below => exact kept_of_not (by omega)
  case isTrue above =>
    split
    case isFalse beyond => exact kept_of_not (by omega)
    case isTrue hin =>
      rw [pageAlign_eq (by omega), pageMask_eq (by omega)]
      split
      case isFalse empty => exact kept_of_not (by omega)
      case isTrue some =>
        rw [taken_clearRange_phys]
        exact and_congr_right fun _ => not_congr (by omega)

theorem taken_enableLow {start stop : Nat} (word : stop < 2 ^ 64) (frame : Nat) :
    (enableLow maps start stop).taken frame = true ↔ maps.taken frame = true ∧
      ¬(frame < lowFrames ∧ start ≤ frame * pageSize ∧ (frame + 1) * pageSize ≤ stop) := by
  have upper : (if stop > physBase then physBase else stop) = min stop physBase := by split <;> omega
  unfold enableLow
  dsimp only
  rw [upper]
  have base : physBase = 1048576 := rfl
  have size : pageSize = 4096 := rfl
  have low : lowFrames = 256 := rfl
  rw [size]
  split
  case isFalse above => exact kept_of_not (by omega)
  case isTrue below =>
    rw [pageAlign_eq (by omega), pageMask_eq (by omega)]
    split
    case isFalse empty => exact kept_of_not (by omega)
    case isTrue some =>
      rw [taken_clearRange_low]
      exact and_congr_right fun _ => not_congr (by omega)

/-- One entry enables the frames wholly inside it if it is usable RAM; an end that wraps enables none. -/
theorem taken_enableRegion (region : BootMemEntry) (managed : frame < managedFrames) :
    (enableRegion maps region).taken frame = true ↔ maps.taken frame = true ∧ ¬region.Enables frame := by
  have pos : 0 < pageSize := by decide
  unfold enableRegion BootMemEntry.Enables BootMemEntry.Contains BootMemEntry.stop
  by_cases skipped : region.type ≠ 1 ∨ region.length = 0
  · rw [if_pos skipped]
    refine kept_of_not ?_
    rintro ⟨usable, _, starts, ends⟩
    rcases skipped with other | empty
    · exact other usable
    · rw [empty] at ends
      have none : (0 : UInt64).toNat = 0 := rfl
      rw [none, Nat.add_mul] at ends
      omega
  rw [if_neg skipped]
  have usable : region.type = 1 := Classical.not_not.mp (not_or.mp skipped).1
  have some : 0 < region.length.toNat := by
    refine Nat.pos_of_ne_zero fun none => (not_or.mp skipped).2 ?_
    exact UInt64.toNat_inj.mp none
  have length := region.length.toNat_lt
  have addr := region.base.toNat_lt
  have word : add64 region.base.toNat region.length.toNat < 2 ^ 64 := add64_lt ..
  rw [taken_enableLow word, taken_enableManaged word managed, and_assoc, ← not_or]
  refine and_congr_right fun _ => not_congr ?_
  unfold add64
  constructor
  · intro either
    have hin : region.base.toNat ≤ frame * pageSize ∧
        (frame + 1) * pageSize ≤ (region.base.toNat + region.length.toNat) % 2 ^ 64 :=
      either.elim And.right And.right
    have grows : frame * pageSize < (frame + 1) * pageSize := by rw [Nat.add_mul]; omega
    exact ⟨usable, by omega, by omega, by omega⟩
  · rintro ⟨_, lt, starts, ends⟩
    rw [Nat.mod_eq_of_lt lt]
    by_cases low : frame < lowFrames
    · exact .inr ⟨low, starts, ends⟩
    · exact .inl ⟨Nat.le_of_not_lt low, starts, ends⟩

theorem taken_regions (regions : List BootMemEntry) (managed : frame < managedFrames) :
    (regions.foldl enableRegion maps).taken frame = true ↔ maps.taken frame = true ∧ ∀ region ∈ regions, ¬region.Enables frame := by
  induction regions generalizing maps with
  | nil => simp
  | cons region rest ih =>
    rw [foldl_cons, ih, taken_enableRegion region managed, forall_mem_cons, and_assoc]

theorem taken_reserveFramebuffer (framebuffer : BootFramebufferInfo) (managed : frame < managedFrames) :
    (reserveFramebuffer maps framebuffer).taken frame = true ↔
      maps.taken frame = true ∨ (lowFrames ≤ frame ∧ framebuffer.Covers frame) := by
  have missed {hin : Prop} (never : ¬hin) : maps.taken frame = true ↔ maps.taken frame = true ∨ hin :=
    ⟨.inl, fun either => either.resolve_right never⟩
  have pitch := framebuffer.pitch.toNat_lt
  have height := framebuffer.height.toNat_lt
  have addr := framebuffer.address.toNat_lt
  have product : framebuffer.pitch.toNat * framebuffer.height.toNat ≤ (2 ^ 32 - 1) * (2 ^ 32 - 1) :=
    Nat.mul_le_mul (by omega) (by omega)
  unfold reserveFramebuffer BootFramebufferInfo.Covers BootFramebufferInfo.stop
  have base : physBase = 1048576 := rfl
  have ends : managedEnd = 1074790400 := rfl
  have size : pageSize = 4096 := rfl
  have low : lowFrames = 256 := rfl
  have frames : managedFrames = 262400 := rfl
  rw [size]
  dsimp only
  rw [mul64_eq (Nat.lt_of_le_of_lt product (by decide)), pageMask_eq addr]
  generalize framebuffer.pitch.toNat * framebuffer.height.toNat = area at product ⊢
  by_cases near : framebuffer.address.toNat / 4096 * 4096 < managedEnd
  · have sum : add64 framebuffer.address.toNat area = framebuffer.address.toNat + area := add64_eq (by omega)
    rw [sum, pageAlign_eq (by omega)]
    by_cases reaches : (framebuffer.address.toNat + area + 4095) / 4096 * 4096 > physBase
    · have lower : (if framebuffer.address.toNat / 4096 * 4096 < physBase then physBase
          else framebuffer.address.toNat / 4096 * 4096) = max physBase (framebuffer.address.toNat / 4096 * 4096) := by
        split <;> omega
      have upper : (if (framebuffer.address.toNat + area + 4095) / 4096 * 4096 > managedEnd then managedEnd
          else (framebuffer.address.toNat + area + 4095) / 4096 * 4096) =
          min managedEnd ((framebuffer.address.toNat + area + 4095) / 4096 * 4096) := by
        split <;> omega
      rw [if_pos ⟨near, reaches⟩, lower, upper, taken_setRange_phys]
      exact or_congr_right (by omega)
    · grind
  · rw [if_neg fun both => near both.1]
    exact missed (by omega)

theorem taken_reserved (managed : frame < managedFrames) :
    (⟨fillBytes maps.phys ((physFrames + 7) / 8) 0xFF, fillBytes maps.low ((lowFrames + 7) / 8) 0xFF⟩ : Bitmaps).taken frame = true := by
  have ones : ∀ bit < 8, (0xFF : BitVec 8).getLsbD bit = true := by decide
  have test (bytes : Nat → BitVec 8) {size idx : Nat} (hin : idx / 8 < size) : bitmapTest (fillBytes bytes size 0xFF) idx = true := by
    rw [bitmapTest_eq]
    unfold fillBytes
    rw [if_pos hin]
    exact ones _ (Nat.mod_lt _ (by decide))
  have phys : physFrames = 262144 := rfl
  have low : lowFrames = 256 := rfl
  have frames : managedFrames = 262400 := rfl
  unfold Bitmaps.taken
  split
  · exact test maps.low (by omega)
  · exact test maps.phys (by omega)

theorem free_physicalInit {info : BootInfo} (hasMemmap : info.hasMemmap = true) (managed : frame < managedFrames) :
    (physicalInit maps (some info)).taken frame = false ↔ (∃ region ∈ info.regions, region.Enables frame) ∧
      ¬(info.hasFramebuffer = true ∧ lowFrames ≤ frame ∧ info.framebuffer.Covers frame) := by
  have enabled := @taken_regions
    ⟨fillBytes maps.phys ((physFrames + 7) / 8) 0xFF, fillBytes maps.low ((lowFrames + 7) / 8) 0xFF⟩ frame info.regions managed
  have some : ∀ {ht : Bool}, (ht = true ↔ ∀ region ∈ info.regions, ¬region.Enables frame) →
      (ht = false ↔ ∃ region ∈ info.regions, region.Enables frame) := by
    intro ht exact
    rw [← Bool.not_eq_true, exact]
    simp
  rw [and_iff_right (taken_reserved managed)] at enabled
  unfold physicalInit
  dsimp only
  rw [if_pos hasMemmap]
  by_cases shown : info.hasFramebuffer = true
  · rw [if_pos shown, ← Bool.not_eq_true, taken_reserveFramebuffer info.framebuffer managed, not_or, Bool.not_eq_true,
      some enabled]
    exact and_congr_right fun _ => not_congr ⟨fun covered => ⟨shown, covered⟩, And.right⟩
  · grind

end

namespace BootInfo

/-- The framebuffer has a byte in the frame. -/
def Shows (info : BootInfo) (frame : Nat) : Prop := info.hasFramebuffer = true ∧ info.framebuffer.Meets frame

/-- The entry is usable memory that the frame lies inside, and no other entry meets the frame. -/
def Alone (info : BootInfo) (region : BootMemEntry) (frame : Nat) : Prop :=
  ∃ before after, info.regions = before ++ region :: after ∧ region.type = 1 ∧ region.Contains frame ∧
    ∀ other ∈ before ++ after, ¬other.Meets frame

/-- What the initialisation is for. -/
structure OnlyRealMemory (info : BootInfo) (maps : Bitmaps) : Prop where
  usable : ∀ frame < managedFrames, maps.taken frame = false → ∃ region ∈ info.regions, region.type = 1 ∧ region.Contains frame
  unreserved : ∀ frame < managedFrames, maps.taken frame = false → ∀ region ∈ info.regions, region.type ≠ 1 → ¬region.Meets frame
  hidden : ∀ frame < managedFrames, maps.taken frame = false → ¬info.Shows frame
  offered : ∀ frame < managedFrames, lowFrames ≤ frame → ∀ region, info.Alone region frame → ¬info.Shows frame →
    maps.taken frame = false

/-- The description asks nothing of the code that it does not do. -/
structure Unambiguous (info : BootInfo) : Prop where
  /-- An entry of another type meets no frame that an entry enables and the framebuffer leaves. -/
  reserved : ∀ frame < managedFrames, (∃ region ∈ info.regions, region.Enables frame) →
    ¬(info.hasFramebuffer = true ∧ lowFrames ≤ frame ∧ info.framebuffer.Covers frame) →
    ∀ other ∈ info.regions, other.type ≠ 1 → ¬other.Meets frame
  /-- The framebuffer meets no low frame that an entry enables. -/
  low : ∀ frame < lowFrames, (∃ region ∈ info.regions, region.Enables frame) → ¬info.Shows frame
  /-- No entry that only itself speaks for a main frame ends at or beyond `2 ^ 64`. -/
  ends : ∀ frame < managedFrames, lowFrames ≤ frame → ∀ region, info.Alone region frame → ¬info.Shows frame → region.stop < 2 ^ 64
  /-- No framebuffer without a byte starts in the middle of such a frame. -/
  empty : ∀ frame < managedFrames, lowFrames ≤ frame → ∀ region, info.Alone region frame → info.hasFramebuffer = true →
    info.framebuffer.pitch.toNat * info.framebuffer.height.toNat = 0 → info.framebuffer.address.toNat % pageSize ≠ 0 →
    info.framebuffer.address.toNat / pageSize ≠ frame

end BootInfo

section

variable {info : BootInfo} {maps : Bitmaps} {frame : Nat} {region : BootMemEntry}

theorem BootMemEntry.Contains.meets (contains : region.Contains frame) : region.Meets frame := by
  obtain ⟨starts, ends⟩ := contains
  unfold BootMemEntry.Meets
  simp only [pageSize] at starts ends ⊢
  omega

theorem BootFramebufferInfo.covers_iff (framebuffer : BootFramebufferInfo) (frame : Nat) : framebuffer.Covers frame ↔
    framebuffer.Meets frame ∨ (framebuffer.pitch.toNat * framebuffer.height.toNat = 0 ∧
      framebuffer.address.toNat % pageSize ≠ 0 ∧ framebuffer.address.toNat / pageSize = frame) := by
  unfold BootFramebufferInfo.Covers BootFramebufferInfo.Meets BootFramebufferInfo.stop
  generalize framebuffer.pitch.toNat * framebuffer.height.toNat = area
  simp only [pageSize]
  omega

theorem BootInfo.Alone.only (alone : info.Alone region frame) {other : BootMemEntry} (mem : other ∈ info.regions)
    (meets : other.Meets frame) : other = region := by
  obtain ⟨pre, after, split, _, _, ne⟩ := alone
  rw [split] at mem
  rcases mem_append.mp mem with early | late
  · exact absurd meets (ne other (mem_append_left _ early))
  · rcases mem_cons.mp late with eq | late
    · exact eq
    · grind

/-- Only real memory is handed out exactly if the description is unambiguous. -/
theorem physicalInit_onlyRealMemory_iff (maps : Bitmaps) (info : BootInfo) (hasMemmap : info.hasMemmap = true) :
    info.OnlyRealMemory (physicalInit maps (some info)) ↔ info.Unambiguous := by
  constructor
  · intro real
    refine ⟨fun frame managed enabled left => ?_, fun frame isLow enabled => ?_, fun frame managed high region alone shown => ?_,
      fun frame managed high region alone has none unaligned eq => ?_⟩
    · exact real.unreserved frame managed ((free_physicalInit hasMemmap managed).mpr ⟨enabled, left⟩)
    · have managed : frame < managedFrames := Nat.lt_of_lt_of_le isLow (by decide)
      exact real.hidden frame managed ((free_physicalInit hasMemmap managed).mpr
        ⟨enabled, fun covered => absurd isLow (Nat.not_lt_of_le covered.2.1)⟩)
    · obtain ⟨⟨other, mem, enables⟩, _⟩ :=
        (free_physicalInit hasMemmap managed).mp (real.offered frame managed high region alone shown)
      rw [← alone.only mem enables.2.2.meets]
      exact enables.2.1
    · have hidden : ¬info.Shows frame := by
        rintro ⟨_, meets⟩
        unfold BootFramebufferInfo.Meets BootFramebufferInfo.stop at meets
        omega
      have free := (free_physicalInit hasMemmap managed).mp (real.offered frame managed high region alone hidden)
      exact free.2 ⟨has, high, (info.framebuffer.covers_iff frame).mpr (.inr ⟨none, unaligned, eq⟩)⟩
  · intro described
    refine ⟨fun frame managed free => ?_, fun frame managed free => ?_, fun frame managed free shown => ?_,
      fun frame managed high region alone hidden => ?_⟩
    · obtain ⟨⟨region, mem, usable, _, contains⟩, _⟩ := (free_physicalInit hasMemmap managed).mp free
      exact ⟨region, mem, usable, contains⟩
    · obtain ⟨enabled, left⟩ := (free_physicalInit hasMemmap managed).mp free
      exact described.reserved frame managed enabled left
    · obtain ⟨enabled, left⟩ := (free_physicalInit hasMemmap managed).mp free
      by_cases isLow : frame < lowFrames
      · exact described.low frame isLow enabled shown
      · exact left ⟨shown.1, Nat.le_of_not_lt isLow, (info.framebuffer.covers_iff frame).mpr (.inl shown.2)⟩
    · have ends := described.ends frame managed high region alone hidden
      have others := alone
      obtain ⟨pre, after, split, usable, contains, _⟩ := others
      have mem : region ∈ info.regions := by
        rw [split]
        exact mem_append_right _ mem_cons_self
      refine (free_physicalInit hasMemmap managed).mpr ⟨⟨region, mem, usable, ends, contains⟩, ?_⟩
      rintro ⟨has, _, covers⟩
      rcases (info.framebuffer.covers_iff frame).mp covers with meets | ⟨none, unaligned, eq⟩
      · exact hidden ⟨has, meets⟩
      · exact described.empty frame managed high region alone has none unaligned eq

/-- A map of one usable entry. -/
def plainMap : BootInfo := ⟨⟨0xE0000000, 4096, 768⟩, [⟨⟨0x100000, 0x1000000⟩, 1⟩], true, true⟩

theorem plainMap_onlyRealMemory :
    plainMap.OnlyRealMemory (physicalInit ⟨fun _ => 0, fun _ => 0⟩ (some plainMap)) ↔ plainMap.Unambiguous :=
  physicalInit_onlyRealMemory_iff _ plainMap rfl

/-- An entry for ACPI tables inside usable memory: the initialisation looks at the type only to skip it. -/
def overlappingMap : BootInfo :=
  { plainMap with regions := [⟨⟨0x100000, 0x1000000⟩, 1⟩, ⟨⟨0x200000, 0x1000⟩, 3⟩] }

theorem overlapping_entry_handed_out :
    ¬overlappingMap.OnlyRealMemory (physicalInit ⟨fun _ => 0, fun _ => 0⟩ (some overlappingMap)) := by
  intro real
  have free : (physicalInit ⟨fun _ => 0, fun _ => 0⟩ (some overlappingMap)).taken 512 = false := by
    refine (free_physicalInit rfl (by decide)).mpr ⟨⟨_, mem_cons_self, rfl, by decide, by decide, by decide⟩, ?_⟩
    rintro ⟨_, _, starts, _⟩
    exact absurd starts (by decide)
  exact real.unreserved 512 (by decide) free _ (mem_cons_of_mem _ mem_cons_self) (by decide) (by unfold BootMemEntry.Meets; decide)

end

end RosKernel.Memory
