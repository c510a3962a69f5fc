import RosKernel.Memory.Word

/-! The bounds of a partition, `kernel/filesys/partition.hpp`, and the accesses of its device node.

All numbers are 64-bit words but the sector count of a transfer, which has 32 bits. The sectors
of a transfer are meant without overflow.
-/

set_option autoImplicit false

namespace RosKernel.Filesys

open Memory

structure GptPartitionEntry where
  startingLBA : Nat
  endingLBA : Nat
  starting_lt : startingLBA < 2 ^ 64
  ending_lt : endingLBA < 2 ^ 64

structure Partition where
  startingLBA : Nat
  sectorCount : Nat
  readOnly : Bool

namespace Partition

/-- `Partition::Partition`; no entry is refused. -/
def ofEntry (entry : GptPartitionEntry) : Partition :=
  ⟨entry.startingLBA, add64 (sub64 entry.endingLBA entry.startingLBA) 1, true⟩

/-- The partition of an entry, after `SetReadOnly` or `SetReadWrite`. -/
def mounted (entry : GptPartitionEntry) (readOnly : Bool) : Partition := { ofEntry entry with readOnly }

section

variable (part : Partition) (lba count : Nat)
include part lba count

/-- The transfer that the parent device is asked for. -/
def readSectors : Option (Nat × Nat) :=
  if part.sectorCount < add64 lba count then none else some (add64 part.startingLBA lba, count)

def writeSectors : Option (Nat × Nat) :=
  if part.readOnly then none
  else if part.sectorCount < add64 lba count then none else some (add64 part.startingLBA lba, count)

/-- The parent device is asked for sectors. -/
def Delegates : Prop :=
  (part.readSectors lba count).isSome = true ∨ (part.writeSectors lba count).isSome = true

end

instance (part : Partition) (lba count : Nat) : Decidable (part.Delegates lba count) := inferInstanceAs (Decidable (_ ∨ _))

end Partition

/-- The sectors of a transfer are those of its partition. -/
def GptPartitionEntry.Contains (entry : GptPartitionEntry) (lba count : Nat) : Prop :=
  ∀ sector, entry.startingLBA + lba ≤ sector → sector < entry.startingLBA + lba + count →
    entry.startingLBA ≤ sector ∧ sector ≤ entry.endingLBA

/-- What `DevFS::Read` and `DevFS::Write` ask a block device for. -/
def devFsRequest (currentPosition size : Nat) : Nat × Nat :=
  let endByte := add64 currentPosition size
  let firstLBA := currentPosition / 512
  let lastLBA := if endByte = 0 then firstLBA else sub64 endByte 1 / 512
  (firstLBA, add64 (sub64 lastLBA firstLBA) 1 % 2 ^ 32)

namespace Partition

variable {entry : GptPartitionEntry} {part : Partition} {lba count : Nat}

theorem delegates_iff : part.Delegates lba count ↔ add64 lba count ≤ part.sectorCount := by
  unfold Delegates readSectors writeSectors
  by_cases out : part.sectorCount < add64 lba count
  · simp [out]
  · simp [out, Nat.not_lt.mp out]

theorem contains_iff : entry.Contains lba count ↔ count = 0 ∨ entry.startingLBA + lba + count ≤ entry.endingLBA + 1 := by
  constructor
  · intro hin
    by_cases empty : count = 0
    · exact .inl empty
    · have last := (hin (entry.startingLBA + lba + count - 1) (by omega) (by omega)).2
      exact .inr (by omega)
  · rintro (rfl | fits) sector low high
    · omega
    · omega

theorem sectorCount_eq (entry : GptPartitionEntry) : (ofEntry entry).sectorCount =
    if entry.endingLBA < entry.startingLBA then (entry.endingLBA + 2 ^ 64 + 1 - entry.startingLBA) % 2 ^ 64
    else (entry.endingLBA + 1 - entry.startingLBA) % 2 ^ 64 := by
  have starting := entry.starting_lt
  have ending := entry.ending_lt
  change (( _ + (2 ^ 64 - _)) % 2 ^ 64 + 1) % 2 ^ 64 = _
  split <;> omega

/-- The guard does what it is for unless the entry is inverted or its sum wraps. -/
theorem delegated_contains_iff (entry : GptPartitionEntry) (readOnly : Bool) (lt : lba < 2 ^ 64) (few : count < 2 ^ 32) :
    ((mounted entry readOnly).Delegates lba count → entry.Contains lba count) ↔
      count = 0 ∨ ¬ (mounted entry readOnly).Delegates lba count ∨ entry.startingLBA ≤ entry.endingLBA ∧ (lba + count < 2 ^ 64 ∨
        lba + count = 2 ^ 64 ∧ entry.startingLBA = 0 ∧ entry.endingLBA = 2 ^ 64 - 1) := by
  have starting := entry.starting_lt
  have ending := entry.ending_lt
  have sectors := sectorCount_eq entry
  rw [contains_iff, delegates_iff]
  change (add64 lba count ≤ (ofEntry entry).sectorCount → _) ↔ _ ∨ ¬ add64 lba count ≤ (ofEntry entry).sectorCount ∨ _
  unfold add64
  generalize (ofEntry entry).sectorCount = sectorCount at sectors
  split at sectors <;> omega

/-- Byte positions reach no further than this sector, so that the sum does not wrap. -/
theorem devFsRequest_lt {pos size : Nat} (lt : pos < 2 ^ 64) :
    (devFsRequest pos size).1 < 2 ^ 55 ∧ (devFsRequest pos size).2 < 2 ^ 32 :=
  ⟨Nat.div_lt_of_lt_mul lt, Nat.mod_lt _ (by decide)⟩

/-- Requests of any caller, and those of the device node. -/
theorem transfers_inside_iff (entry : GptPartitionEntry) (readOnly : Bool) {lba count position size : Nat} (small : lba < 2 ^ 64)
    (few : count < 2 ^ 32) (seek : position < 2 ^ 64) :
    (((mounted entry readOnly).Delegates lba count → entry.Contains lba count) ↔
      count = 0 ∨ ¬ (mounted entry readOnly).Delegates lba count ∨ entry.startingLBA ≤ entry.endingLBA ∧ (lba + count < 2 ^ 64 ∨
        lba + count = 2 ^ 64 ∧ entry.startingLBA = 0 ∧ entry.endingLBA = 2 ^ 64 - 1)) ∧
    (((mounted entry readOnly).Delegates (devFsRequest position size).1 (devFsRequest position size).2 →
        entry.Contains (devFsRequest position size).1 (devFsRequest position size).2) ↔
      (devFsRequest position size).2 = 0 ∨
        ¬ (mounted entry readOnly).Delegates (devFsRequest position size).1 (devFsRequest position size).2 ∨
        entry.startingLBA ≤ entry.endingLBA) := by
  refine ⟨delegated_contains_iff entry readOnly small few, ?_⟩
  obtain ⟨first, sectors⟩ := @devFsRequest_lt position size seek
  have sum : (devFsRequest position size).1 + (devFsRequest position size).2 < 2 ^ 64 := by omega
  rw [delegated_contains_iff entry readOnly (by omega) sectors]
  refine or_congr_right (or_congr_right (and_iff_left ?_))
  exact .inl sum

/-- A partition of a hundred sectors. -/
def hundredSectors : GptPartitionEntry := ⟨100, 199, by decide, by decide⟩

theorem transfers_inside_hundred : (mounted hundredSectors true).Delegates 7 3 ∧ hundredSectors.Contains 7 3 ∧
    ((mounted hundredSectors true).Delegates (devFsRequest 600 8).1 (devFsRequest 600 8).2 →
      hundredSectors.Contains (devFsRequest 600 8).1 (devFsRequest 600 8).2) := by
  have both := @transfers_inside_iff hundredSectors true 7 3 600 8 (by decide) (by decide) (by decide)
  have delegates : (mounted hundredSectors true).Delegates 7 3 := delegates_iff.mpr (by decide)
  exact ⟨delegates, both.1.mpr (by decide) delegates, both.2.mpr (by decide)⟩

def invertedEntry : GptPartitionEntry := ⟨100, 50, by decide, by decide⟩

/-- The device node of the inverted entry reads sector 100, and a sum that wraps reads before a partition of a hundred sectors. -/
theorem transfers_outside :
    ((mounted invertedEntry true).readSectors (devFsRequest 0 512).1 (devFsRequest 0 512).2 = some (100, 1) ∧
      ¬ invertedEntry.Contains (devFsRequest 0 512).1 (devFsRequest 0 512).2) ∧
    (mounted hundredSectors true).readSectors (2 ^ 64 - 60) 100 = some (40, 100) ∧ ¬ hundredSectors.Contains (2 ^ 64 - 60) 100 := by
  refine ⟨⟨by decide, ?_⟩, by decide, ?_⟩
  all_goals
    intro contains
    exact absurd (contains_iff.mp contains) (by decide)

end Partition

end RosKernel.Filesys
