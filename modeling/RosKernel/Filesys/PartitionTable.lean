import Mathlib.Data.List.Basic
import RosKernel.Filesys.Partition
import RosKernel.Library.Bytes

/-! The partition table of a disk, `kernel/filesys/gpt/gpt.cpp`.

The header gives the number and the size of the entries. The code multiplies both in 32 bits to
size its buffer, and steps over the buffer with the size of its own record.
-/

set_option autoImplicit false

namespace RosKernel.Filesys.GPTFS

open Library List

structure GPTHeader where
  signature : Nat
  partitionEntryLBA : Nat
  numberOfPartitionEntries : Nat
  sizeOfPartitionEntry : Nat

/-- `InitializeGPT`: the header is copied from sector 1, its signature is not compared with anything. -/
def initializeGPT (disk : Bytes) : GPTHeader :=
  { signature := load disk 512 8
    partitionEntryLBA := load disk 584 8
    numberOfPartitionEntries := load disk 592 4
    sizeOfPartitionEntry := load disk 596 4 }

def efiPart : Nat := 0x5452415020494645

namespace GPTHeader

variable (header : GPTHeader)

def sectorsToRead : Nat := (header.numberOfPartitionEntries * header.sizeOfPartitionEntry % 2 ^ 32 + 511) % 2 ^ 32 / 512

/-- The disk from the first entry on. -/
def table (disk : Bytes) : Bytes := fun pos => disk (512 * header.partitionEntryLBA + pos)

end GPTHeader

/-- What `ReadSectors` does. A USB drive that fails leaves the buffer behind. -/
inductive Transfer where
  | done
  | failed (leftBuffer : Bool)
  deriving DecidableEq

/-- An access to the buffer, from an offset on, or its release. -/
inductive Event where
  | read (offset width : Nat)
  | free

structure Registered where
  index : Nat
  entry : GptPartitionEntry

structure Parsing where
  events : List Event
  registered : List Registered

section

variable (memory : Bytes)

def zeroField (entry width : Nat) : Bool := load memory entry width == 0

/-- The fields of the type that are compared, each only when those before it are zero. -/
def guidReads (entry : Nat) : List (Nat × Nat) :=
  (entry, 4) :: if zeroField memory entry 4 then (entry + 4, 2) :: if zeroField memory (entry + 4) 2 then
    (entry + 6, 2) :: if zeroField memory (entry + 6) 2 then [(entry + 8, 1)] else [] else [] else []

/-- The last seven bytes of the type are not looked at. -/
def emptyEntry (entry : Nat) : Bool :=
  zeroField memory entry 4 && zeroField memory (entry + 4) 2 && zeroField memory (entry + 6) 2 && zeroField memory (entry + 8) 1

def entryReads (i : Nat) : List (Nat × Nat) :=
  guidReads memory (128 * i) ++
    if emptyEntry memory (128 * i) then [] else [(128 * i + 32, 8), (128 * i + 40, 8), (128 * i, 16), (128 * i + 16, 16)]

def entryAt (entry : Nat) : GptPartitionEntry :=
  ⟨load memory (entry + 32) 8, load memory (entry + 40) 8, load_lt _ _ 8, load_lt _ _ 8⟩

def parsed (i : Nat) : Option Registered :=
  if emptyEntry memory (128 * i) then none else some ⟨i, entryAt memory (128 * i)⟩

/-- The manager holds 128 partitions; further ones it refuses. -/
def registerPartitions (partitionsCount : Nat) (parts : List Registered) : List Registered := parts.take (128 - partitionsCount)

def parsePartitionEntries (header : GPTHeader) (transfer : Transfer) (partitionsCount : Nat) : Parsing :=
  let entries := range header.numberOfPartitionEntries
  let walk := (entries.flatMap (entryReads memory)).map (fun access => Event.read access.1 access.2) ++ [Event.free]
  let registered := registerPartitions partitionsCount (entries.filterMap (parsed memory))
  if header.sectorsToRead = 0 then ⟨[], []⟩
  else
    match transfer with
    | .done => ⟨walk, registered⟩
    | .failed false => ⟨[], []⟩
    -- The buffer is released, and the pointer to it is still not null.
    | .failed true => ⟨.free :: walk, registered⟩

end

/-- What lies at the address of the buffer; the transfer fills the sectors asked for. -/
def memoryAt (header : GPTHeader) (disk behind : Bytes) (transfer : Transfer) : Bytes := fun pos =>
  if transfer = .done ∧ pos < 512 * header.sectorsToRead then header.table disk pos else behind pos

/-- The buffer of the given size is accessed inside its bounds and before its release. -/
def Sound (size : Nat) : Bool → List Event → Prop
  | _, [] => True
  | live, .read offset width :: rest => live = true ∧ offset + width ≤ size ∧ Sound size live rest
  | live, .free :: rest => live = true ∧ Sound size false rest

/-- The partition that the table on the disk has at an index. -/
def named (header : GPTHeader) (disk : Bytes) (transfer : Transfer) (i : Nat) : Option Registered :=
  if header.signature = efiPart ∧ transfer = .done ∧ zeroField (header.table disk) (i * header.sizeOfPartitionEntry) 16 = false then
    some ⟨i, entryAt (header.table disk) (i * header.sizeOfPartitionEntry)⟩
  else none

/-- The record of 128 bytes at an index, as long as the manager has room. -/
def taken (table : Bytes) (partitionsCount i : Nat) : Option Registered :=
  if ((range i).filterMap (parsed table)).length < 128 - partitionsCount then parsed table i else none

/-- The buffer is used soundly, and the partitions of the table are registered in its order. -/
def FollowsTable (header : GPTHeader) (disk behind : Bytes) (transfer : Transfer) (partitionsCount : Nat) : Prop :=
  let run := parsePartitionEntries (memoryAt header disk behind transfer) header transfer partitionsCount
  Sound (512 * header.sectorsToRead) true run.events ∧
    run.registered = (range header.numberOfPartitionEntries).filterMap (named header disk transfer)

theorem sound_walk {size : Nat} (reads : List (Nat × Nat)) :
    Sound size true (reads.map (fun access => Event.read access.1 access.2) ++ [Event.free]) ↔
      ∀ access ∈ reads, access.1 + access.2 ≤ size := by
  induction reads with
  | nil => simp [Sound]
  | cons access reads ih => simp [Sound, ih]

theorem not_sound_walk {size : Nat} (reads : List (Nat × Nat)) :
    ¬ Sound size false (reads.map (fun access => Event.read access.1 access.2) ++ [Event.free]) := by
  cases reads with
  | nil => simp [Sound]
  | cons access reads => simp [Sound]

theorem entryReads_inside {memory : Bytes} {sectors i : Nat} :
    (∀ access ∈ entryReads memory i, access.1 + access.2 ≤ 512 * sectors) ↔ i < 4 * sectors := by
  constructor
  · intro within
    have first : 128 * i + 4 ≤ 512 * sectors := within (128 * i, 4) (mem_append_left _ (.head _))
    omega
  · rintro lt ⟨offset, width⟩ mem
    have bound : offset + width ≤ 128 * i + 128 := by
      unfold entryReads guidReads at mem
      split_ifs at mem <;> simp at mem <;> omega
    exact Nat.le_trans bound (by omega)

theorem range_within {count limit : Nat} : (∀ i < count, i < limit) ↔ count ≤ limit :=
  ⟨fun below => Nat.le_of_not_lt fun out => Nat.lt_irrefl _ (below limit out), fun le _ lt => Nat.lt_of_lt_of_le lt le⟩

theorem parsed_congr {memory table : Bytes} {sectors i : Nat} (eq : ∀ pos, pos < 512 * sectors → memory pos = table pos)
    (lt : i < 4 * sectors) : parsed memory i = parsed table i := by
  have agree (start width : Nat) (high : start + width ≤ 128 * i + 128) : load memory start width = load table start width :=
    load_congr fun pos _ last => eq pos (by omega)
  have type : emptyEntry memory (128 * i) = emptyEntry table (128 * i) := by
    unfold emptyEntry zeroField
    rw [agree _ 4 (by omega), agree _ 2 (by omega), agree _ 2 (by omega), agree _ 1 (by omega)]
  have bounds : entryAt memory (128 * i) = entryAt table (128 * i) := by
    unfold entryAt
    congr 1
    · exact agree _ 8 (by omega)
    · exact agree _ 8 (by omega)
  rw [parsed, parsed, type, bounds]

theorem take_filterMap_range (f : Nat → Option Registered) (room count : Nat) :
    ((range count).filterMap f).take room =
      (range count).filterMap fun i => if ((range i).filterMap f).length < room then f i else none := by
  induction count with
  | zero => exact take_nil
  | succ count ih =>
    rw [range_succ, filterMap_append, filterMap_append, ← ih, take_append]
    congr 1
    simp only [filterMap_cons, filterMap_nil]
    generalize ((range count).filterMap f).length = held
    by_cases lt : held < room
    · have one : 1 ≤ room - held := by omega
      rw [if_pos lt]
      cases f count with
      | none => rw [take_nil]
      | some part => rw [take_of_length_le one]
    · rw [if_neg lt, Nat.sub_eq_zero_of_le (Nat.not_lt.mp lt), take_zero]

theorem index_of_parsed {table : Bytes} {i : Nat} {part : Registered} (h : parsed table i = some part) : part.index = i := by
  unfold parsed at h
  split at h
  · cases h
  · cases h
    rfl

theorem filterMap_range_eq_iff {count : Nat} {f g : Nat → Option Registered}
    (left : ∀ i part, f i = some part → part.index = i) (right : ∀ i part, g i = some part → part.index = i) :
    (range count).filterMap f = (range count).filterMap g ↔ ∀ i < count, f i = g i := by
  have mem_iff (h : Nat → Option Registered) (indexed : ∀ i part, h i = some part → part.index = i) {i : Nat} (lt : i < count)
      (part : Registered) : h i = some part ↔ part ∈ (range count).filterMap h ∧ part.index = i := by
    rw [mem_filterMap]
    constructor
    · intro eq
      exact ⟨⟨i, mem_range.mpr lt, eq⟩, indexed i part eq⟩
    · rintro ⟨⟨j, -, eq⟩, rfl⟩
      rwa [← indexed j part eq] at eq
  constructor
  · intro eq i lt
    apply Option.ext
    intro part
    rw [mem_iff f left lt, mem_iff g right lt, eq]
  · intro eq
    exact filterMap_congr fun i mem => eq i (mem_range.mp mem)

/-- One of the bytes from `pos` on, `width` of them, is not zero. -/
def marked (table : Bytes) (pos width : Nat) : Bool := (range width).any fun k => table (pos + k) != 0

theorem marked_add (table : Bytes) (pos width more : Nat) :
    marked table pos (width + more) = (marked table pos width || marked table (pos + width) more) := by
  simp only [marked, range_add, any_append, any_map, Function.comp_def, Nat.add_assoc]

theorem zeroField_eq (table : Bytes) (pos width : Nat) : zeroField table pos width = !marked table pos width := by
  rw [zeroField]
  induction width with
  | zero => rfl
  | succ width ih =>
    have byte : ((table (pos + width)).toNat * 256 ^ width == 0) = (table (pos + width) == 0) := by
      rw [Bool.eq_iff_iff, beq_iff_eq, beq_iff_eq, Nat.mul_eq_zero,
        or_iff_left (Nat.pos_iff_ne_zero.mp (Nat.pow_pos (by decide))), ← UInt8.toNat_inj]
      rfl
    have both : ∀ first snd : Nat, (first + snd == 0) = (first == 0 && snd == 0) := by
      intro first snd
      rw [Bool.eq_iff_iff, Bool.and_eq_true, beq_iff_eq, beq_iff_eq, beq_iff_eq, Nat.add_eq_zero_iff]
    rw [load, both, ih, byte, marked_add]
    simp [marked, bne]

theorem emptyEntry_eq (table : Bytes) (pos : Nat) : emptyEntry table pos = !marked table pos 9 := by
  have bytes : marked table pos (4 + 2 + 2 + 1) = (marked table pos 4 || marked table (pos + 4) 2 ||
      marked table (pos + 6) 2 || marked table (pos + 8) 1) := by
    rw [marked_add, marked_add, marked_add]
  change _ = !marked table pos (4 + 2 + 2 + 1)
  rw [bytes]
  simp only [emptyEntry, zeroField_eq, Bool.not_or]

/-- The entry at an index is there, by all bytes of its type, exactly when the record of 128 bytes is, by the nine bytes that are
tested, and there is room for it; and then both have the same bounds. -/
def SameRecord (header : GPTHeader) (table : Bytes) (partitionsCount i : Nat) : Prop :=
  let entry := i * header.sizeOfPartitionEntry
  let record := 128 * i
  (header.signature = efiPart ∧ marked table entry 16 = true ↔ marked table record 9 = true ∧
    (range i).countP (fun j => marked table (128 * j) 9) < 128 - partitionsCount) ∧
  (header.signature = efiPart → marked table entry 16 = true →
    load table (record + 32) 8 = load table (entry + 32) 8 ∧ load table (record + 40) 8 = load table (entry + 40) 8)

theorem entryAt_eq_iff {table : Bytes} {record entry : Nat} : entryAt table record = entryAt table entry ↔
    load table (record + 32) 8 = load table (entry + 32) 8 ∧ load table (record + 40) 8 = load table (entry + 40) 8 := by
  simp only [entryAt, GptPartitionEntry.mk.injEq]

theorem taken_eq_named_iff {header : GPTHeader} {disk : Bytes} {partitionsCount i : Nat} :
    taken (header.table disk) partitionsCount i = named header disk .done i ↔
      SameRecord header (header.table disk) partitionsCount i := by
  have before : ((range i).filterMap (parsed (header.table disk))).length =
      (range i).countP fun j => marked (header.table disk) (128 * j) 9 := by
    rw [length_filterMap_eq_countP]
    refine countP_congr fun j _ => ?_
    cases shown : marked (header.table disk) (128 * j) 9 <;> simp [parsed, emptyEntry_eq, shown]
  unfold taken named SameRecord
  dsimp only
  rw [before, parsed, emptyEntry_eq, zeroField_eq, ← entryAt_eq_iff]
  generalize entryAt (header.table disk) (128 * i) = first
  generalize entryAt (header.table disk) (i * header.sizeOfPartitionEntry) = snd
  by_cases room : (range i).countP (fun j => marked (header.table disk) (128 * j) 9) < 128 - partitionsCount
  all_goals by_cases signed : header.signature = efiPart
  all_goals cases marked (header.table disk) (128 * i) 9
  all_goals cases marked (header.table disk) (i * header.sizeOfPartitionEntry) 16
  all_goals simp [room, signed]

/-- The table is followed only where the code's own stride and test of a record agree with it, the
records fit the buffer, and a failing transfer leaves no buffer behind. -/
theorem followsTable_iff (header : GPTHeader) (disk behind : Bytes) (transfer : Transfer) (partitionsCount : Nat) :
    FollowsTable header disk behind transfer partitionsCount ↔
      if header.sectorsToRead = 0 then header.signature = efiPart → transfer = .done →
        ∀ i < header.numberOfPartitionEntries, marked (header.table disk) (i * header.sizeOfPartitionEntry) 16 = false
      else if transfer = .done then
        header.numberOfPartitionEntries ≤ 4 * header.sectorsToRead ∧
          ∀ i < header.numberOfPartitionEntries, SameRecord header (header.table disk) partitionsCount i
      else transfer ≠ .failed true := by
  have named_index (i : Nat) (part : Registered) (h : named header disk transfer i = some part) : part.index = i := by
    rw [named] at h
    split at h
    · cases h
      rfl
    · cases h
  simp only [FollowsTable, parsePartitionEntries]
  by_cases none_read : header.sectorsToRead = 0
  · rw [if_pos none_read, if_pos none_read, eq_comm, filterMap_eq_nil_iff]
    simp only [Sound, mem_range, true_and, named, ite_eq_right_iff, zeroField_eq, reduceCtorEq, imp_false, not_and]
    simp only [Bool.not_eq_false', Bool.not_eq_true]
    exact ⟨fun none signed done i lt => none i lt signed done, fun none i lt signed done => none signed done i lt⟩
  rw [if_neg none_read, if_neg none_read]
  match transfer with
  | .failed true =>
    rw [if_neg (by decide)]
    refine iff_of_false ?_ (by simp)
    rw [Sound]
    exact fun both => not_sound_walk _ both.1.2
  | .failed false =>
    rw [if_neg (by decide)]
    refine iff_of_true ⟨trivial, ?_⟩ (by simp)
    exact (filterMap_eq_nil_iff.mpr fun i _ => if_neg (by simp)).symm
  | .done =>
    rw [if_pos rfl]
    rw [sound_walk]
    simp only [forall_mem_flatMap, mem_range, entryReads_inside]
    rw [range_within]
    refine and_congr_right fun fits => ?_
    -- Every record that is looked at lies in the part of the buffer that the transfer filled.
    have filled {i : Nat} (lt : i < header.numberOfPartitionEntries) :
        parsed (memoryAt header disk behind .done) i = parsed (header.table disk) i :=
      parsed_congr (fun pos inside => if_pos ⟨rfl, inside⟩) (Nat.lt_of_lt_of_le lt fits)
    have taken_index (i : Nat) (part : Registered) (h : taken (header.table disk) partitionsCount i = some part) :
        part.index = i := by
      unfold taken at h
      split at h
      · exact index_of_parsed h
      · cases h
    rw [filterMap_congr fun i mem => filled (mem_range.mp mem), registerPartitions, take_filterMap_range]
    exact (filterMap_range_eq_iff taken_index named_index).trans (forall₂_congr fun _ _ => taken_eq_named_iff)

/-- A disk without a signature whose table has one record with a type. -/
def unsignedDisk : Bytes := fun pos => if pos = 584 then 2 else if pos = 592 ∨ pos = 1024 then 1 else if pos = 596 then 128 else 0

/-- The record is registered although the header has no signature. -/
theorem unsigned_registered : ¬ FollowsTable (initializeGPT unsignedDisk) unsignedDisk (fun _ => 0) .done 0 := by
  have header : initializeGPT unsignedDisk = ⟨0, 2, 1, 128⟩ := by simp [initializeGPT, load, unsignedDisk]
  intro follows
  have listed := congrArg List.length follows.2
  rw [header] at listed
  simp [parsePartitionEntries, GPTHeader.sectorsToRead, registerPartitions, parsed, emptyEntry, zeroField, memoryAt,
    GPTHeader.table, named, efiPart, load, unsignedDisk] at listed

end RosKernel.Filesys.GPTFS
