import RosKernel.Fat32.Chains

/-! The copies of the allocation table on the disk.

The reader finds an entry by its byte offset, the writer by the number of entries in a sector, and
what it changes it writes to every copy. An entry behind the end of the first copy is one of the
copies behind it.
-/

set_option autoImplicit false

namespace RosKernel.Fat32

open Library

/-- A sector of the device has at least the bytes of a sector of the volume and is written whole. -/
abbrev Disk := Nat → Bytes

/-- What the boot sector says of the table. -/
structure Table where
  firstFATSectorLBA : Nat
  bytesPerSector : Nat
  numFATs : Nat
  sectorsPerFAT32 : Nat
  words : 4 ∣ bytesPerSector
  sector_pos : 0 < bytesPerSector
  copies_pos : 0 < numFATs

namespace Table

variable {t : Table} {disk : Disk} {volume : Volume} {cluster other value : Nat}

def getNextCluster (t : Table) (disk : Disk) (currentCluster : Nat) : Nat :=
  let fatOffset := currentCluster * 4
  let fatSector := t.firstFATSectorLBA + fatOffset / t.bytesPerSector
  let offsetInSector := fatOffset % t.bytesPerSector
  load (disk fatSector) offsetInSector 4 % 2 ^ 28

def entriesPerSector (t : Table) : Nat := t.bytesPerSector / 4

/-- The loop writes the modified sector to one copy after another. -/
def setNextCluster (t : Table) (disk : Disk) (cluster nextClusterValue : Nat) : Disk :=
  let fatSector := t.firstFATSectorLBA + cluster / t.entriesPerSector
  let offsetInSector := cluster % t.entriesPerSector
  let fatData := store (disk fatSector) (4 * offsetInSector) 4 (nextClusterValue % 2 ^ 28)
  let lbaOffset := fatSector - t.firstFATSectorLBA
  (List.range t.numFATs).foldl (fun disk i =>
    Function.update disk (t.firstFATSectorLBA + i * t.sectorsPerFAT32 + lbaOffset) fatData) disk

def Inside (t : Table) (cluster : Nat) : Prop := cluster / t.entriesPerSector < t.sectorsPerFAT32

instance (t : Table) (cluster : Nat) : Decidable (t.Inside cluster) := Nat.decLt _ _

/-- Every copy has the bytes of the first. -/
def Identical (t : Table) (disk : Disk) : Prop :=
  ∀ i < t.numFATs, ∀ s < t.sectorsPerFAT32,
    SameBytes (disk (t.firstFATSectorLBA + s)) (disk (t.firstFATSectorLBA + i * t.sectorsPerFAT32 + s)) 0 t.bytesPerSector

/-- The number a reader would use for the entry in a copy behind the first. -/
def InLaterCopy (t : Table) (cluster other : Nat) : Prop :=
  ∃ i, 1 ≤ i ∧ i < t.numFATs ∧ other = cluster + i * (t.sectorsPerFAT32 * t.entriesPerSector)

/-- What writing an entry does to the answers of the reader and to the disk. -/
structure WritesEntry (t : Table) (disk after : Disk) (cluster value : Nat) : Prop where
  reads : t.getNextCluster after cluster = value % 2 ^ 28
  others : ∀ other, other ≠ cluster → ¬ t.InLaterCopy cluster other →
    t.getNextCluster after other = t.getNextCluster disk other
  identical : t.Identical after
  confined : ∀ lba, after lba ≠ disk lba →
    ∃ i < t.numFATs, ∃ s < t.sectorsPerFAT32, lba = t.firstFATSectorLBA + i * t.sectorsPerFAT32 + s

theorem bytesPerSector_eq (t : Table) : t.bytesPerSector = 4 * t.entriesPerSector :=
  (Nat.mul_div_cancel' t.words).symm

theorem entriesPerSector_pos (t : Table) : 0 < t.entriesPerSector := by
  have := t.bytesPerSector_eq
  have := t.sector_pos
  omega

theorem getNextCluster_eq (t : Table) (disk : Disk) (cluster : Nat) :
    t.getNextCluster disk cluster = load (disk (t.firstFATSectorLBA + cluster / t.entriesPerSector))
      (4 * (cluster % t.entriesPerSector)) 4 % 2 ^ 28 := by
  unfold getNextCluster
  dsimp only
  rw [t.bytesPerSector_eq, Nat.mul_comm cluster 4, Nat.mul_div_mul_left _ _ (by decide), Nat.mul_mod_mul_left]

theorem entry_inside (t : Table) (cluster : Nat) : 4 * (cluster % t.entriesPerSector) + 4 ≤ t.bytesPerSector := by
  have := Nat.mod_lt cluster t.entriesPerSector_pos
  have := t.bytesPerSector_eq
  omega

theorem foldl_update {data : Bytes} {place : Nat → Nat} (indices : List Nat) (lba : Nat) :
    indices.foldl (fun disk i => Function.update disk (place i) data) disk lba =
      if ∃ i ∈ indices, lba = place i then data else disk lba := by
  induction indices generalizing disk with
  | nil => simp
  | cons first rest ih =>
    rw [List.foldl_cons, ih]
    by_cases later : ∃ i ∈ rest, lba = place i
    · obtain ⟨i, mem, eq⟩ := later
      rw [if_pos ⟨i, mem, eq⟩, if_pos ⟨i, .tail _ mem, eq⟩]
    · rw [if_neg later]
      by_cases h : lba = place first
      · rw [if_pos ⟨first, .head _, h⟩, h, Function.update_self]
      · rw [Function.update_of_ne h, if_neg]
        rintro ⟨i, mem, eq⟩
        rcases List.mem_cons.mp mem with rfl | inRest
        · exact h eq
        · exact later ⟨i, inRest, eq⟩

/-- The sector of the entry with the new value in it. -/
def modified (t : Table) (disk : Disk) (cluster value : Nat) : Bytes :=
  store (disk (t.firstFATSectorLBA + cluster / t.entriesPerSector)) (4 * (cluster % t.entriesPerSector)) 4 (value % 2 ^ 28)

theorem setNextCluster_eq (t : Table) (disk : Disk) (cluster value lba : Nat) :
    t.setNextCluster disk cluster value lba =
      if ∃ i < t.numFATs, lba = t.firstFATSectorLBA + i * t.sectorsPerFAT32 + cluster / t.entriesPerSector
      then t.modified disk cluster value else disk lba := by
  unfold setNextCluster
  rw [Nat.add_sub_cancel_left, foldl_update]
  simp only [List.mem_range]
  rfl

theorem setNextCluster_copy (hin : t.Inside cluster) {i s : Nat} (copy : i < t.numFATs) (sector : s < t.sectorsPerFAT32) :
    t.setNextCluster disk cluster value (t.firstFATSectorLBA + i * t.sectorsPerFAT32 + s) =
      if s = cluster / t.entriesPerSector then t.modified disk cluster value
      else disk (t.firstFATSectorLBA + i * t.sectorsPerFAT32 + s) := by
  rw [setNextCluster_eq]
  refine if_congr ⟨?_, fun eq => ⟨i, copy, by rw [eq]⟩⟩ rfl rfl
  rintro ⟨j, -, eq⟩
  have remainder := congrArg (· % t.sectorsPerFAT32) (show s + i * t.sectorsPerFAT32 =
    cluster / t.entriesPerSector + j * t.sectorsPerFAT32 by omega)
  simpa only [Nat.add_mul_mod_self_right, Nat.mod_eq_of_lt sector, Nat.mod_eq_of_lt hin] using remainder

theorem modified_reads : load (t.modified disk cluster value) (4 * (cluster % t.entriesPerSector)) 4 % 2 ^ 28 = value % 2 ^ 28 := by
  rw [modified, load_store]
  omega

theorem modified_others (ne : other % t.entriesPerSector ≠ cluster % t.entriesPerSector) :
    load (t.modified disk cluster value) (4 * (other % t.entriesPerSector)) 4 =
      load (disk (t.firstFATSectorLBA + cluster / t.entriesPerSector)) (4 * (other % t.entriesPerSector)) 4 :=
  load_store_apart (by omega)

theorem setNextCluster_others (identical : t.Identical disk) (hin : t.Inside cluster) (ne : other ≠ cluster)
    (first : ¬ t.InLaterCopy cluster other) :
    t.getNextCluster (t.setNextCluster disk cluster value) other = t.getNextCluster disk other := by
  rw [getNextCluster_eq, getNextCluster_eq, setNextCluster_eq]
  split
  case isFalse => rfl
  case isTrue written =>
    obtain ⟨i, copy, place⟩ := written
    have sector : other / t.entriesPerSector = i * t.sectorsPerFAT32 + cluster / t.entriesPerSector := by omega
    by_cases eq : other % t.entriesPerSector = cluster % t.entriesPerSector
    · -- the eq place in a sector of some copy; in the first it is the entry itself
      have number : other = cluster + i * (t.sectorsPerFAT32 * t.entriesPerSector) := by
        rw [← Nat.div_add_mod other t.entriesPerSector, sector, eq, Nat.mul_add, Nat.add_assoc, Nat.div_add_mod,
          Nat.mul_left_comm, Nat.mul_comm t.entriesPerSector, Nat.add_comm]
      rcases Nat.eq_zero_or_pos i with rfl | later
      · exact absurd (number.trans (by simp)) ne
      · exact absurd ⟨i, later, copy, number⟩ first
    · have bytes := (identical i copy _ hin).mono (Nat.zero_le _) (by simpa using t.entry_inside other)
      rw [modified_others eq, place, load_congr bytes]

theorem setNextCluster_identical (identical : t.Identical disk) (hin : t.Inside cluster) :
    t.Identical (t.setNextCluster disk cluster value) := by
  intro i copy s sector
  have main := @setNextCluster_copy t disk cluster value hin 0 s t.copies_pos sector
  rw [Nat.zero_mul, Nat.add_zero] at main
  rw [main, setNextCluster_copy hin copy sector]
  split
  · exact fun _ _ _ => rfl
  · exact identical i copy s sector

theorem setNextCluster_writes (identical : t.Identical disk) (inside : t.Inside cluster) :
    WritesEntry t disk (t.setNextCluster disk cluster value) cluster value := by
  refine ⟨?_, fun other => setNextCluster_others identical inside, setNextCluster_identical identical inside, ?_⟩
  · rw [getNextCluster_eq, setNextCluster_eq, if_pos ⟨0, t.copies_pos, by omega⟩]
    exact modified_reads
  · intro lba changed
    rw [setNextCluster_eq] at changed
    split at changed
    case isFalse => exact absurd rfl changed
    case isTrue written =>
      obtain ⟨i, copy, place⟩ := written
      exact ⟨i, copy, _, inside, place⟩

def twoCopies : Table := ⟨32, 512, 2, 1, by decide, Nat.zero_lt_succ 511, by decide⟩

theorem setNextCluster_writes_twoCopies :
    WritesEntry twoCopies (fun _ _ => 0) (twoCopies.setNextCluster (fun _ _ => 0) 2 5) 2 5 :=
  setNextCluster_writes (fun _ _ _ _ _ _ _ => rfl) (by decide)

/-- Entry 130 of a table of 128 entries is entry 2 of the second copy. -/
theorem later_copy_changes : twoCopies.Identical (fun _ _ => 0) ∧ twoCopies.Inside 2 ∧
    twoCopies.getNextCluster (fun _ _ => 0) 130 = 0 ∧
    twoCopies.getNextCluster (twoCopies.setNextCluster (fun _ _ => 0) 2 5) 130 = 5 ∧
    ¬ ∀ other, other ≠ 2 → twoCopies.getNextCluster (twoCopies.setNextCluster (fun _ _ => 0) 2 5) other =
      twoCopies.getNextCluster (fun _ _ => 0) other := by
  have changed : twoCopies.getNextCluster (twoCopies.setNextCluster (fun _ _ => 0) 2 5) 130 = 5 := by decide
  refine ⟨fun _ _ _ _ _ _ _ => rfl, by decide, rfl, changed, fun unchanged => ?_⟩
  exact absurd (changed.symm.trans (unchanged 130 (by decide))) (by decide)

end Table

end RosKernel.Fat32
