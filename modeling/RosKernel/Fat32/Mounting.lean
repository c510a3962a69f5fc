import RosKernel.Library.Bytes
import RosKernel.Memory.Word
import Mathlib.Data.Nat.GCD.Basic

/-! Mounting a FAT32 volume, `FAT32FileSystem::Mount` and `ParseBPB`, and what the later
computations make of the geometry.

The boot sector is tested for its signatures and for four zeros. The numbers that the rest of the
driver computes from it are compared with the volume and with the sectors of the device.
-/

set_option autoImplicit false

namespace RosKernel.Fat32

open Library Memory Option

/-- What one `ReadSectors` of one sector returns; far below the range of a 32-bit offset. -/
structure BlockDevice where
  sectorBytes : Nat
  sector_le : sectorBytes ≤ 2 ^ 31

/-- The fields of `FAT32_BPB` that are read after it is accepted. -/
structure BPB where
  bytesPerSector : Nat
  sectorsPerCluster : Nat
  reservedSectors : Nat
  numFATs : Nat
  totalSectors32 : Nat
  sectorsPerFAT32 : Nat
  rootDirCluster : Nat
  fsInfoCluster : Nat
deriving DecidableEq

/-- `FSType` of a FAT32 volume. -/
def fat32Type : List UInt8 := [0x46, 0x41, 0x54, 0x33, 0x32, 0x20, 0x20, 0x20]

def bpbOf (boot : Bytes) : BPB :=
  { bytesPerSector := load boot 11 2
    sectorsPerCluster := load boot 13 1
    reservedSectors := load boot 14 2
    numFATs := load boot 16 1
    totalSectors32 := load boot 32 4
    sectorsPerFAT32 := load boot 36 4
    rootDirCluster := load boot 44 4
    fsInfoCluster := load boot 48 2 }

def parseBPB (boot : Bytes) : Option BPB :=
  if boot 510 ≠ 0x55 ∨ boot 511 ≠ 0xAA then none
  else if (List.range 8).map (fun i => boot (82 + i)) ≠ fat32Type then none
  else if (bpbOf boot).bytesPerSector = 0 ∨ (bpbOf boot).sectorsPerCluster = 0 then none
  else if (bpbOf boot).numFATs = 0 ∨ (bpbOf boot).sectorsPerFAT32 = 0 then none
  else some (bpbOf boot)

structure Mounted where
  bpb : BPB
  firstFATSectorLBA : Nat
  firstDataSectorLBA : Nat
  totalClusters : Nat
  nextFreeClusterHint : Nat

/-- The hint that `ReadFSInfo` leaves. -/
def readFSInfo (readSector : Nat → Option Bytes) (bpb : BPB) (totalClusters : Nat) : Nat :=
  if bpb.fsInfoCluster = 0 ∨ bpb.fsInfoCluster = 0xFFFF then 2
  else
    match readSector bpb.fsInfoCluster with
    | none => 2
    | some sector =>
      if load sector 0 4 ≠ 0x41615252 ∨ load sector 0x1E4 4 ≠ 0x61417272 ∨ load sector 0x1FE 2 ≠ 0xAA55 then 2
      else
        let nextFreeCluster := load sector 0x1EC 4
        if 2 ≤ nextFreeCluster ∧ nextFreeCluster < totalClusters then nextFreeCluster else 2

namespace BPB

def firstDataSectorLBA (bpb : BPB) : Nat := bpb.reservedSectors + bpb.numFATs * bpb.sectorsPerFAT32

/-- `m_TotalClusters`: a difference of 64 bits, a quotient of 32. -/
def totalClusters (bpb : BPB) : Nat :=
  let dataSectorCount := sub64 bpb.totalSectors32 bpb.firstDataSectorLBA
  dataSectorCount / bpb.sectorsPerCluster % 2 ^ 32

/-- The number of clusters that the sectors behind the tables really hold. -/
def dataClusters (bpb : BPB) : Nat := (bpb.totalSectors32 - bpb.firstDataSectorLBA) / bpb.sectorsPerCluster

end BPB

/-- `Mount`, when sector 0 can be read. -/
def mount (readSector : Nat → Option Bytes) : Option Mounted :=
  match readSector 0 with
  | none => none
  | some boot => (parseBPB boot).map fun bpb =>
    { bpb := bpb
      firstFATSectorLBA := bpb.reservedSectors
      firstDataSectorLBA := bpb.firstDataSectorLBA
      totalClusters := bpb.totalClusters
      nextFreeClusterHint := readFSInfo readSector bpb bpb.totalClusters }

namespace Mounted

variable (m : Mounted)

def bytesPerSector : Nat := m.bpb.bytesPerSector

def entriesPerSector : Nat := m.bytesPerSector / 4

def clusterBytes : Nat := m.bytesPerSector * m.bpb.sectorsPerCluster

def clusterToLBA (cluster : Nat) : Nat :=
  if cluster < 2 then 0 else m.firstDataSectorLBA + (cluster - 2) * m.bpb.sectorsPerCluster

def InRange (cluster : Nat) : Prop := 2 ≤ cluster ∧ cluster < m.totalClusters + 2

/-- What the later computations divide by: `GetNextCluster` and the directory helpers, `SetNextCluster`,
and `Read`, `Write` and `Truncate`. -/
def divisors : List Nat := [m.bytesPerSector, m.entriesPerSector, m.clusterBytes]

/-- The sector of a table entry inside its table, for the reader and for the writer. -/
def readerSector (cluster : Nat) : Nat := cluster * 4 / m.bytesPerSector

def writerSector (cluster : Nat) : Nat := cluster / m.entriesPerSector

/-- A difference of 32 bits. -/
def previousSlot : Nat := (m.bytesPerSector + 2 ^ 32 - 32) % 2 ^ 32

/-- A byte offset that the driver uses in a buffer of one sector. Table entries are those of any cluster
number that a table entry can name. -/
inductive SectorUse : Nat → Prop
  | signature {offset : Nat} : offset = 510 ∨ offset = 511 → SectorUse offset
  | getNextCluster {cluster byte : Nat} : cluster < 0x0FFFFFF8 → byte < 4 →
      SectorUse (cluster * 4 % m.bytesPerSector + byte)
  | setNextCluster {cluster byte : Nat} : cluster < 0x0FFFFFF8 → byte < 4 →
      SectorUse (4 * (cluster % m.entriesPerSector) + byte)
  | freeSlot {slot : Nat} : 32 * slot + 32 ≤ m.bytesPerSector → SectorUse (32 * slot)
  | newSlot {first needed slot byte : Nat} : 32 * first + 32 * needed ≤ m.bytesPerSector → slot < needed → byte < 32 →
      SectorUse ((32 * first + 32 * slot) % m.bytesPerSector + byte)
  /-- The slot of an entry that `ReadDirectory` reported, and those before it in its sector. -/
  | entry {slot back byte : Nat} : 32 * slot + 32 ≤ m.clusterBytes → 32 * back ≤ 32 * slot % m.bytesPerSector → byte < 32 →
      SectorUse (32 * slot % m.bytesPerSector - 32 * back + byte)
  /-- The slots of the sector before, from its end on. -/
  | backwards {back byte : Nat} : 32 ≤ m.clusterBytes → 32 * back ≤ m.previousSlot → byte = 0 ∨ byte = 11 →
      SectorUse ((m.previousSlot - 32 * back + byte) % 2 ^ 32)

/-- Every later computation stays inside the volume, its tables and its buffers. -/
structure SoundGeometry (device : BlockDevice) : Prop where
  divisors : ∀ divisor ∈ m.divisors, divisor ≠ 0
  counted : m.totalClusters = m.bpb.dataClusters
  entries : ∀ cluster, m.InRange cluster →
    m.readerSector cluster < m.bpb.sectorsPerFAT32 ∧ m.writerSector cluster < m.bpb.sectorsPerFAT32
  apart : ∀ first second, m.InRange first → m.InRange second → first < second →
    m.clusterToLBA first + m.bpb.sectorsPerCluster ≤ m.clusterToLBA second
  inside : ∀ cluster, m.InRange cluster →
    m.firstFATSectorLBA + m.bpb.numFATs * m.bpb.sectorsPerFAT32 ≤ m.clusterToLBA cluster ∧
      m.clusterToLBA cluster + m.bpb.sectorsPerCluster ≤ m.bpb.totalSectors32
  offsets : ∀ offset, m.SectorUse offset → offset < device.sectorBytes

end Mounted

/-- The relations between the fields that the mount does not test. -/
structure BPB.Consistent (bpb : BPB) (device : BlockDevice) : Prop where
  boot : 512 ≤ device.sectorBytes
  words : 4 ≤ bpb.bytesPerSector
  /-- The tables end inside the volume, or the difference wraps to no clusters at all. -/
  area : bpb.firstDataSectorLBA ≤ bpb.totalSectors32 ∨
    (2 ^ 64 + bpb.totalSectors32 - bpb.firstDataSectorLBA) / bpb.sectorsPerCluster % 2 ^ 32 = 0
  table : bpb.dataClusters = 0 ∨ bpb.dataClusters + 1 < bpb.sectorsPerFAT32 * (bpb.bytesPerSector / 4)
  sector : bpb.bytesPerSector + 4 ≤ device.sectorBytes + Nat.gcd 4 bpb.bytesPerSector
  slots : ∀ slot, 32 * slot + 32 ≤ bpb.bytesPerSector * bpb.sectorsPerCluster →
    32 * slot % bpb.bytesPerSector + 32 ≤ device.sectorBytes
  rows : 32 ≤ bpb.bytesPerSector ∨ bpb.bytesPerSector * bpb.sectorsPerCluster < 32

/-- The widths of the fields and the four tests. -/
structure BPB.Accepted (bpb : BPB) : Prop where
  bytesPerSector : 0 < bpb.bytesPerSector ∧ bpb.bytesPerSector < 2 ^ 16
  sectorsPerCluster : 0 < bpb.sectorsPerCluster
  reservedSectors : bpb.reservedSectors < 2 ^ 16
  numFATs : bpb.numFATs < 2 ^ 8
  totalSectors32 : bpb.totalSectors32 < 2 ^ 32
  sectorsPerFAT32 : bpb.sectorsPerFAT32 < 2 ^ 32

theorem parseBPB_accepted {boot : Bytes} {bpb : BPB} (parsed : parseBPB boot = some bpb) : bpb.Accepted := by
  unfold parseBPB at parsed
  split at parsed
  · exact nomatch parsed
  · split at parsed
    · exact nomatch parsed
    · split at parsed
      · exact nomatch parsed
      case isFalse sized =>
        split at parsed
        · exact nomatch parsed
        · cases some.inj parsed
          obtain ⟨sector, cluster⟩ := not_or.mp sized
          exact ⟨⟨Nat.pos_of_ne_zero sector, load_lt boot 11 2⟩, Nat.pos_of_ne_zero cluster, load_lt boot 14 2,
            load_lt boot 16 1, load_lt boot 32 4, load_lt boot 36 4⟩

variable {bpb : BPB} {device : BlockDevice} {m : Mounted}

theorem BPB.Accepted.firstDataSectorLBA_lt (accepted : bpb.Accepted) : bpb.firstDataSectorLBA < 2 ^ 41 := by
  have tables : bpb.numFATs * bpb.sectorsPerFAT32 ≤ 255 * 2 ^ 32 :=
    Nat.mul_le_mul (Nat.le_of_lt_succ accepted.numFATs) (Nat.le_of_lt accepted.sectorsPerFAT32)
  have reserved := accepted.reservedSectors
  unfold BPB.firstDataSectorLBA
  omega

theorem BPB.Accepted.counted_iff (accepted : bpb.Accepted) : bpb.totalClusters = bpb.dataClusters ↔
    bpb.firstDataSectorLBA ≤ bpb.totalSectors32 ∨
      (2 ^ 64 + bpb.totalSectors32 - bpb.firstDataSectorLBA) / bpb.sectorsPerCluster % 2 ^ 32 = 0 := by
  have first := accepted.firstDataSectorLBA_lt
  have total := accepted.totalSectors32
  unfold BPB.totalClusters BPB.dataClusters
  by_cases fits : bpb.firstDataSectorLBA ≤ bpb.totalSectors32
  · refine iff_of_true ?_ (.inl fits)
    have quotient : (bpb.totalSectors32 - bpb.firstDataSectorLBA) / bpb.sectorsPerCluster ≤ bpb.totalSectors32 :=
      (Nat.div_le_self ..).trans (Nat.sub_le ..)
    rw [sub64_eq fits (by omega), Nat.mod_eq_of_lt (by omega)]
  · have wrapped : sub64 bpb.totalSectors32 bpb.firstDataSectorLBA = 2 ^ 64 + bpb.totalSectors32 - bpb.firstDataSectorLBA := by
      unfold sub64
      omega
    have nothing : bpb.totalSectors32 - bpb.firstDataSectorLBA = 0 := Nat.sub_eq_zero_of_le (by omega)
    rw [wrapped, nothing, Nat.zero_div, or_iff_right fits]

theorem entries_iff (words : 4 ≤ m.bytesPerSector) :
    (∀ cluster, m.InRange cluster →
      m.readerSector cluster < m.bpb.sectorsPerFAT32 ∧ m.writerSector cluster < m.bpb.sectorsPerFAT32) ↔
    (m.totalClusters = 0 ∨ m.totalClusters + 1 < m.bpb.sectorsPerFAT32 * (m.bytesPerSector / 4)) := by
  have pos : 0 < m.entriesPerSector := Nat.div_pos words (by decide)
  constructor
  · intro hin
    rcases Nat.eq_zero_or_pos m.totalClusters with none | some
    · exact .inl none
    · obtain ⟨_, writer⟩ := hin (m.totalClusters + 1) ⟨by omega, by omega⟩
      exact .inr ((Nat.div_lt_iff_lt_mul pos).mp writer)
  · rintro (none | fits) cluster ⟨low, high⟩
    · omega
    · have below : cluster < m.bpb.sectorsPerFAT32 * m.entriesPerSector := Nat.lt_of_le_of_lt (by omega) fits
      refine ⟨?_, (Nat.div_lt_iff_lt_mul pos).mpr below⟩
      have whole : m.bpb.sectorsPerFAT32 * (4 * m.entriesPerSector) ≤ m.bpb.sectorsPerFAT32 * m.bytesPerSector :=
        Nat.mul_le_mul_left _ (Nat.mul_div_le m.bytesPerSector 4)
      rw [Nat.mul_left_comm] at whole
      exact (Nat.div_lt_iff_lt_mul (by omega)).mpr (by omega)

theorem gcd_four (size : Nat) : Nat.gcd 4 size = Nat.gcd (size % 4) 4 := Nat.gcd_rec 4 size

theorem readerOffset_le {size : Nat} (pos : 0 < size) (cluster : Nat) :
    cluster * 4 % size + Nat.gcd 4 size ≤ size := by
  have divides : Nat.gcd 4 size ∣ cluster * 4 % size :=
    (Nat.dvd_mod_iff (Nat.gcd_dvd_right 4 size)).mpr ((Nat.gcd_dvd_left 4 size).mul_left cluster)
  have ne : Nat.gcd 4 size ∣ size - cluster * 4 % size := Nat.dvd_sub (Nat.gcd_dvd_right 4 size) divides
  have below := Nat.mod_lt (cluster * 4) pos
  have := Nat.le_of_dvd (by omega) ne
  omega

theorem readerOffset_reached {size : Nat} (pos : 0 < size) (lt : size < 2 ^ 16) :
    ∃ cluster < 0x0FFFFFF8, cluster * 4 % size + Nat.gcd 4 size = size := by
  rw [gcd_four]
  have remainder : size % 4 = 0 ∨ size % 4 = 1 ∨ size % 4 = 2 ∨ size % 4 = 3 := by omega
  rcases remainder with zero | one | two | three
  · refine ⟨(size - 4) / 4, by omega, ?_⟩
    rw [zero, Nat.div_mul_cancel (by omega), Nat.mod_eq_of_lt (by omega)]
    change size - 4 + 4 = size
    omega
  · refine ⟨(size - 1) / 4, by omega, ?_⟩
    rw [one, Nat.div_mul_cancel (by omega), Nat.mod_eq_of_lt (by omega)]
    change size - 1 + 1 = size
    omega
  · refine ⟨(size - 2) / 4, by omega, ?_⟩
    rw [two, Nat.div_mul_cancel (by omega), Nat.mod_eq_of_lt (by omega)]
    change size - 2 + 2 = size
    omega
  · -- three times around
    refine ⟨(3 * size - 1) / 4, by omega, ?_⟩
    have around : 3 * size - 1 = size - 1 + size * 2 := by omega
    rw [three, Nat.div_mul_cancel (by omega), around, Nat.add_mul_mod_self_left, Nat.mod_eq_of_lt (by omega)]
    change size - 1 + 1 = size
    omega

theorem offsets_iff (words : 4 ≤ m.bytesPerSector) (lt : m.bytesPerSector < 2 ^ 16) :
    (∀ off, m.SectorUse off → off < device.sectorBytes) ↔
      512 ≤ device.sectorBytes ∧ m.bytesPerSector + 4 ≤ device.sectorBytes + Nat.gcd 4 m.bytesPerSector ∧
      (∀ slot, 32 * slot + 32 ≤ m.clusterBytes → 32 * slot % m.bytesPerSector + 32 ≤ device.sectorBytes) ∧
      (32 ≤ m.bytesPerSector ∨ m.clusterBytes < 32) := by
  have pos : 0 < m.bytesPerSector := by omega
  constructor
  · intro within
    refine ⟨within 511 (.signature (.inr rfl)), ?_, fun slot hin => ?_, ?_⟩
    · obtain ⟨cluster, named, hr⟩ := readerOffset_reached pos lt
      have last := within _ (@Mounted.SectorUse.getNextCluster m cluster 3 named (by decide))
      omega
    · have last := within _ (@Mounted.SectorUse.entry m slot 0 31 hin (Nat.zero_le _) (by decide))
      omega
    · by_contra neither
      obtain ⟨short, slotted⟩ := not_or.mp neither
      have far := within _ (@Mounted.SectorUse.backwards m 0 0 (by omega) (Nat.zero_le _) (.inl rfl))
      have bound := device.sector_le
      unfold Mounted.previousSlot at far
      omega
  · rintro ⟨boot, sector, slots, rows⟩ off use
    have common : Nat.gcd 4 m.bytesPerSector ≤ 4 := Nat.gcd_le_left _ (by decide)
    cases use with
    | signature place => omega
    | @getNextCluster cluster byte named hin =>
      have := readerOffset_le pos cluster
      omega
    | @setNextCluster cluster byte named hin =>
      have entry : cluster % m.entriesPerSector < m.entriesPerSector := Nat.mod_lt _ (Nat.div_pos words (by decide))
      have whole : 4 * m.entriesPerSector ≤ m.bytesPerSector := Nat.mul_div_le ..
      omega
    | freeSlot hin => omega
    | newSlot hin below byte =>
      rw [Nat.mod_eq_of_lt (by omega)]
      omega
    | entry hin back byte =>
      have := slots _ hin
      omega
    | backwards slotted back byte =>
      have row : 32 ≤ m.bytesPerSector := rows.resolve_right (by omega)
      have prev : m.previousSlot = m.bytesPerSector - 32 := by
        unfold Mounted.previousSlot
        omega
      rw [Nat.mod_eq_of_lt (by omega)]
      omega

theorem clusters_inside {first snd : Nat} (place : m.firstDataSectorLBA = m.bpb.firstDataSectorLBA)
    (cnt : m.totalClusters = m.bpb.dataClusters) (inRange : m.InRange first) :
    m.bpb.firstDataSectorLBA ≤ m.clusterToLBA first ∧
    m.clusterToLBA first + m.bpb.sectorsPerCluster ≤ m.bpb.totalSectors32 ∧
    (first < snd → m.clusterToLBA first + m.bpb.sectorsPerCluster ≤ m.clusterToLBA snd) := by
  obtain ⟨low, high⟩ := inRange
  have whole := Nat.div_mul_le_self (m.bpb.totalSectors32 - m.bpb.firstDataSectorLBA) m.bpb.sectorsPerCluster
  have upTo : (first - 2 + 1) * m.bpb.sectorsPerCluster ≤ m.bpb.dataClusters * m.bpb.sectorsPerCluster :=
    Nat.mul_le_mul_right _ (by omega)
  have some : 0 < m.bpb.dataClusters := by omega
  have area : m.bpb.firstDataSectorLBA < m.bpb.totalSectors32 := by
    by_contra out
    rw [BPB.dataClusters, Nat.sub_eq_zero_of_le (by omega), Nat.zero_div] at some
    exact absurd some (Nat.lt_irrefl 0)
  unfold BPB.dataClusters at upTo
  rw [Nat.succ_mul] at upTo
  unfold Mounted.clusterToLBA
  rw [if_neg (by omega), place]
  refine ⟨by omega, by omega, fun below => ?_⟩
  have onward : (first - 2 + 1) * m.bpb.sectorsPerCluster ≤ (snd - 2) * m.bpb.sectorsPerCluster :=
    Nat.mul_le_mul_right _ (by omega)
  rw [Nat.succ_mul] at onward
  rw [if_neg (by omega)]
  omega

theorem mount_eq {readSector : Nat → Option Bytes} (mounted : mount readSector = some m) :
    m.bpb.Accepted ∧ m.firstFATSectorLBA = m.bpb.reservedSectors ∧ m.firstDataSectorLBA = m.bpb.firstDataSectorLBA ∧
      m.totalClusters = m.bpb.totalClusters := by
  unfold mount at mounted
  split at mounted
  · exact nomatch mounted
  · obtain ⟨bpb, parsed, rfl⟩ := Option.map_eq_some_iff.mp mounted
    exact ⟨parseBPB_accepted parsed, rfl, rfl, rfl⟩

/-- A volume that was mounted is sound exactly when its boot sector is consistent with itself
and with the sectors of the device. -/
theorem mount_sound_iff {readSector : Nat → Option Bytes} (mounted : mount readSector = some m) (device : BlockDevice) :
    m.SoundGeometry device ↔ m.bpb.Consistent device := by
  obtain ⟨accepted, reserved, place, count⟩ := mount_eq mounted
  have lt : m.bytesPerSector < 2 ^ 16 := accepted.bytesPerSector.2
  have cnt : m.totalClusters = m.bpb.dataClusters ↔ _ := count ▸ accepted.counted_iff
  constructor
  · intro sound
    have words : 4 ≤ m.bytesPerSector := by
      have entries := sound.divisors m.entriesPerSector (by simp [Mounted.divisors])
      unfold Mounted.entriesPerSector at entries
      omega
    obtain ⟨boot, sector, slots, rows⟩ := (offsets_iff words lt).mp sound.offsets
    have table := (entries_iff words).mp sound.entries
    rw [sound.counted] at table
    exact ⟨boot, words, cnt.mp sound.counted, table, sector, slots, rows⟩
  · intro consistent
    have words : 4 ≤ m.bytesPerSector := consistent.words
    have clusters := cnt.mpr consistent.area
    have divisors : ∀ divisor ∈ m.divisors, divisor ≠ 0 := by
      intro divisor mem
      simp only [Mounted.divisors, List.mem_cons, List.not_mem_nil, or_false] at mem
      rcases mem with rfl | rfl | rfl
      · omega
      · exact Nat.ne_of_gt (Nat.div_pos words (by decide))
      · exact Nat.ne_of_gt (Nat.mul_pos (by omega) accepted.sectorsPerCluster)
    refine ⟨divisors, clusters, (entries_iff words).mpr ?_, ?_, ?_, (offsets_iff words lt).mpr
      ⟨consistent.boot, consistent.sector, consistent.slots, consistent.rows⟩⟩
    · rw [clusters]
      exact consistent.table
    · intro first snd inRange _ below
      exact (clusters_inside place clusters inRange).2.2 below
    · intro cluster inRange
      obtain ⟨low, high, _⟩ := @clusters_inside m cluster 0 place clusters inRange
      rw [reserved]
      exact ⟨low, high⟩

/-- A boot sector for sectors of 512 bytes, one to a cluster, with 32 reserved sectors and two tables of 8. -/
def bootSector (totalSectors : Nat) : Bytes :=
  let filled := fun pos => match pos with
    | 510 => 0x55
    | 511 => 0xAA
    | _ => if pos < 82 then 0 else fat32Type.getD (pos - 82) 0
  store (store (store (store (store (store (store filled 11 2 512) 13 1 1) 14 2 32) 16 1 2) 32 4 totalSectors) 36 4 8) 44 4 2

def sectors512 : BlockDevice := ⟨512, by decide⟩

theorem mount_sound_small : ∃ m, mount (fun _ => some (bootSector 548)) = some m ∧ m.totalClusters = 500 ∧
    m.SoundGeometry sectors512 := by
  obtain ⟨m, mounted⟩ : ∃ m, mount (fun _ => some (bootSector 548)) = some m := ⟨_, rfl⟩
  have bpb : m.bpb = ⟨512, 1, 32, 2, 548, 8, 2, 0⟩ := by
    cases some.inj mounted
    decide
  have count : m.totalClusters = 500 := by
    rw [(mount_eq mounted).2.2.2, bpb]
    decide
  refine ⟨m, mounted, count, (mount_sound_iff mounted sectors512).mpr ?_⟩
  rw [bpb]
  exact ⟨by decide, by decide, by decide, by decide, by decide, fun slot hin => by simp only [sectors512] at hin ⊢; omega,
    by decide⟩

/-- A volume said to be shorter than its reserved area: the count of clusters wraps around. -/
theorem mount_unsound_short : ∃ m, mount (fun _ => some (bootSector 10)) = some m ∧ m.totalClusters = 4294967258 ∧
    m.bpb.dataClusters = 0 ∧ ¬ m.SoundGeometry sectors512 := by
  obtain ⟨m, mounted⟩ : ∃ m, mount (fun _ => some (bootSector 10)) = some m := ⟨_, rfl⟩
  have bpb : m.bpb = ⟨512, 1, 32, 2, 10, 8, 2, 0⟩ := by
    cases some.inj mounted
    decide
  have count : m.totalClusters = 4294967258 := by
    rw [(mount_eq mounted).2.2.2, bpb]
    decide
  have none : m.bpb.dataClusters = 0 := by
    rw [bpb]
    decide
  refine ⟨m, mounted, count, none, fun sound => ?_⟩
  have cnt := sound.counted
  rw [count, none] at cnt
  exact absurd cnt (by decide)

end RosKernel.Fat32
