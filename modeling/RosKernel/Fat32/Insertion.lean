import Mathlib.Data.List.TakeWhile
import RosKernel.Fat32.Listing
import RosKernel.Fat32.Removal

/-! What `CreateDirectoryEntry` does to a volume, and when the new entry or a renamed file can be found.

The directory may grow by clusters of zeros, also where the call fails in the end; on success one run of its free slots holds
the entry. The writer takes the first run inside one sector, the reader ends at the first slot never used of the whole chain.
-/

set_option autoImplicit false

namespace RosKernel.Fat32

open Library List

section

variable {g : Geometry} {volume expanded after : Volume} {name : Name} {new : List Slot} {address place : Address}
  {start startCluster fileSize : Nat} {clusters extra : List Nat}

def slotsNeeded (name : Name) : Nat := ((toUtf16 name).length + 12) / 13 + 1

theorem slotsNeeded_pos (name : Name) : 0 < slotsNeeded name := Nat.succ_pos _

theorem slotsNeeded_eq (ascii : Ascii name) (short : name.length ≤ 255) : slotsNeeded name = (name.length + 12) / 13 + 1 := by
  rw [slotsNeeded, toUtf16_ascii ascii short, length_map]

theorem entrySlots_length (name : Name) (startCluster fileSize : Nat) :
    (entrySlots name startCluster fileSize).length = slotsNeeded name := by
  unfold entrySlots slotsNeeded
  rw [length_append, longSlots_length]
  rfl

namespace Volume

theorem runAddresses_succ (place : Address) (needed : Nat) :
    runAddresses place (needed + 1) = place :: (runAddresses place (needed + 1)).tail := by
  simp [runAddresses, range_succ_eq_map]

theorem nodup_addresses (holds : volume.Holds g start clusters) : (directoryAddresses g clusters).Nodup :=
  nodup_directoryAddresses holds.nodup fun cluster mem => (holds.inRange cluster mem).1

/-! ## What an insertion does to the volume -/

/-- An entry came into a free run of the directory, which may have grown for it. -/
structure Inserted (g : Geometry) (volume : Volume) (start : Nat) (clusters extra : List Nat) (new : List Slot)
    (place : Address) (expanded after : Volume) : Prop where
  grown : Grown g volume start clusters extra expanded
  room : ∃ found before behind, expanded.findFreeDirSlots g start new.length = some found ∧
    after = expanded.writeSlots g found 0 new ∧ found.offset + 32 * new.length ≤ g.bytesPerSector ∧ 32 ∣ found.offset ∧
    place = ⟨found.lba, found.offset + 32 * (new.length - 1)⟩ ∧
    directoryAddresses g (clusters ++ extra) = before ++ runAddresses found new.length ++ behind ∧
    ∀ address ∈ runAddresses found new.length, (expanded.slot address).isFree

theorem createDirectoryEntry_spec (holds : volume.Holds g start clusters) (nz : start ≠ 0) :
    ∃ extra expanded, Grown g volume start clusters extra expanded ∧
      ((volume.createDirectoryEntry g start name startCluster fileSize).2 = none →
        (volume.createDirectoryEntry g start name startCluster fileSize).1 = expanded) ∧
      ∀ place, (volume.createDirectoryEntry g start name startCluster fileSize).2 = some place →
        Inserted g volume start clusters extra (entrySlots name startCluster fileSize) place expanded
          (volume.createDirectoryEntry g start name startCluster fileSize).1 := by
  have length : (entrySlots name startCluster fileSize).length = ((toUtf16 name).length + 12) / 13 + 1 :=
    entrySlots_length name startCluster fileSize
  unfold createDirectoryEntry
  dsimp only
  by_cases long : 255 < (toUtf16 name).length
  · rw [if_pos long]
    exact ⟨[], volume, .refl holds, fun _ => rfl, fun _ none => nomatch none⟩
  · rw [if_neg long]
    obtain ⟨extra, grown, room⟩ := @makeRoom_grown g volume start (((toUtf16 name).length + 12) / 13 + 1) clusters
      maxExpandAttempts holds nz
    generalize volume.makeRoom g start (((toUtf16 name).length + 12) / 13 + 1) maxExpandAttempts = made at grown room
    obtain ⟨expanded, answer⟩ := made
    cases answer with
    | none => exact ⟨extra, expanded, grown, fun _ => rfl, fun _ none => nomatch none⟩
    | some hf =>
      refine ⟨extra, expanded, grown, (nomatch ·), fun place eq => ⟨grown, ?_⟩⟩
      have search := room hf rfl
      obtain ⟨⟨pre, behind, split⟩, fits, hal, free⟩ := findFreeDirSlots_some grown.holds nz (Nat.succ_pos _) search
      rw [length]
      refine ⟨hf, pre, behind, search, rfl, fits, hal, ?_, split, free⟩
      rw [← Option.some.inj eq, shift_eq (by omega), Nat.add_sub_cancel]

namespace Inserted

section

variable (ins : Inserted g volume start clusters extra new place expanded after)
include ins

theorem holds : after.Holds g start (clusters ++ extra) := by
  obtain ⟨_, _, _, _, rfl, _⟩ := ins.room
  exact ins.grown.holds.congr fun _ _ => congrFun writeSlots_frame.1 _

theorem keeps {others : List Nat} {first : Nat} (holds : volume.Holds g first others)
    (ne : ∀ cluster ∈ others, cluster ∉ clusters) : after.Holds g first others := by
  obtain ⟨_, _, _, _, rfl, _⟩ := ins.room
  exact (ins.grown.keeps holds ne).congr fun _ _ => congrFun writeSlots_frame.1 _

end

theorem slots (inserted : Inserted g volume start clusters extra new place expanded after) : ∃ found before behind,
    (∀ address ∈ runAddresses found new.length, (expanded.slot address).isFree) ∧
      directoryAddresses g (clusters ++ extra) = before ++ runAddresses found new.length ++ behind ∧
      place = ⟨found.lba, found.offset + 32 * (new.length - 1)⟩ ∧
      after.directorySlots g (clusters ++ extra) =
        expanded.slots before ++ (runAddresses found new.length).zip new ++ expanded.slots behind := by
  obtain ⟨found, before, behind, _, rfl, fits, offset, last, split, free⟩ := inserted.room
  refine ⟨found, before, behind, free, split, last, ?_⟩
  have distinct := nodup_addresses inserted.grown.holds
  have offsets : ∀ address ∈ directoryAddresses g (clusters ++ extra), 32 ∣ address.offset := fun _ mem => aligned mem
  unfold directorySlots
  rw [split] at distinct offsets ⊢
  exact slots_writeSlots fits offset distinct offsets

end Inserted

end Volume

end

variable {g : Geometry} {volume expanded after : Volume} {name : Name} {start startCluster fileSize needed : Nat}
  {clusters extra : List Nat} {place : Address}

namespace Volume

/-- A directory whose slots are free ones and entries. -/
structure Directory (g : Geometry) (volume : Volume) (start : Nat) (clusters : List Nat) : Prop where
  holds : volume.Holds g start clusters
  nonzero : start ≠ 0
  orderly : Orderly ((volume.directorySlots g clusters).map Prod.snd)

/-- The slots before the place that was found, the run that is written, and the slots behind it. -/
def runAt (all : List (Address × Slot)) (place : Address) (needed : Nat) : List Slot × List Slot × List Slot :=
  let before := all.takeWhile fun entry => entry.1 != place
  let others := all.dropWhile fun entry => entry.1 != place
  (before.map Prod.snd, (others.take needed).map Prod.snd, (others.drop needed).map Prod.snd)

/-- The entry goes to a safe run or, where there is no room, behind a directory without slots never used. -/
def InsertionSafe (g : Geometry) (volume : Volume) (start : Nat) (clusters : List Nat) (name : Name) : Prop :=
  match volume.findFreeDirSlots g start (slotsNeeded name) with
  | none => ∀ slot ∈ (volume.directorySlots g clusters).map Prod.snd, slot.neverUsed = false
  | some place =>
    let (before, run, behind) := runAt (volume.directorySlots g clusters) place (slotsNeeded name)
    SafeRun before run behind

/-! ## The slots after an insertion -/

theorem runAt_eq {pre behind : List Address} (pos : 0 < needed)
    (dist : (pre ++ runAddresses place needed ++ behind).Nodup) :
    runAt (volume.slots (pre ++ runAddresses place needed ++ behind)) place needed =
      ((volume.slots pre).map Prod.snd, (volume.slots (runAddresses place needed)).map Prod.snd,
        (volume.slots behind).map Prod.snd) := by
  obtain ⟨more, rfl⟩ := Nat.exists_eq_succ_of_ne_zero (Nat.pos_iff_ne_zero.mp pos)
  have out : ∀ entry ∈ volume.slots pre, (entry.1 != place) = true := by
    intro entry mem
    obtain ⟨addr, hin, rfl⟩ := mem_map.mp mem
    rw [append_assoc, nodup_append] at dist
    have := dist.2.2 addr hin place (by rw [Nat.succ_eq_add_one, runAddresses_succ]; simp)
    simpa using this
  have parts : volume.slots (pre ++ runAddresses place (more + 1) ++ behind) =
      volume.slots pre ++ ((place, volume.slot place) :: volume.slots ((runAddresses place (more + 1)).tail ++ behind)) := by
    conv_lhs => rw [runAddresses_succ]
    simp [slots]
  have length : (runAddresses place (more + 1)).length = more + 1 := by simp [runAddresses]
  unfold runAt
  rw [Nat.succ_eq_add_one, parts, takeWhile_append_of_pos out, dropWhile_append_of_pos out]
  have h : (place != place) = false := by simp
  simp only [takeWhile_cons, dropWhile_cons, h, Bool.false_eq_true, if_false, append_nil]
  have rest : (place, volume.slot place) :: volume.slots ((runAddresses place (more + 1)).tail ++ behind) =
      volume.slots (runAddresses place (more + 1)) ++ volume.slots behind := by
    conv_rhs => rw [runAddresses_succ]
    simp [slots]
  have sameLength : (volume.slots (runAddresses place (more + 1))).length = more + 1 := by simp [slots, length]
  rw [rest, take_left' sameLength, drop_left' sameLength]

end Volume

namespace Volume

/-! ## When the entry is listed -/

section

variable (grown : Grown g volume start clusters extra after) (dir : Directory g volume start clusters)
include grown dir

theorem Grown.orderly : Directory g after start (clusters ++ extra) := by
  refine ⟨grown.holds, dir.nonzero, ?_⟩
  rw [grown.directorySlots_eq dir.holds, map_append]
  refine dir.orderly.append ?_
  rw [map_map]
  induction directoryAddresses g extra with
  | nil => exact .nil
  | cons addr rest ih => exact .free rfl ih

theorem Grown.readDirectory_eq : after.readDirectory g start = volume.readDirectory g start := by
  rw [Volume.readDirectory_eq grown.holds dir.nonzero, Volume.readDirectory_eq dir.holds dir.nonzero,
    grown.directorySlots_eq dir.holds, readSlots_append]
  congr 1
  unfold readOn
  cases (readSlots LongName.empty (volume.directorySlots g clusters)).2 with
  | none => rfl
  | some behind =>
    cases directoryAddresses g extra with
    | nil => exact append_nil _
    | cons addr rest => exact append_nil _

end

theorem filled_iff (directory : Directory g volume start clusters) (ascii : Ascii name) (short : name.length ≤ 255)
    (positive : 0 < name.length) {found : Address} (search : volume.findFreeDirSlots g start (slotsNeeded name) = some found) :
    ((volume.writeSlots g found 0 (entrySlots name startCluster fileSize)).readDirectory g start).1.Perm
        (⟨name, shortSlot (makeSFNFromName name) startCluster fileSize, ⟨found.lba, found.offset + 32 * (slotsNeeded name - 1)⟩⟩ ::
          (volume.readDirectory g start).1) ↔
      SafeRun (runAt (volume.directorySlots g clusters) found (slotsNeeded name)).1
        (runAt (volume.directorySlots g clusters) found (slotsNeeded name)).2.1
        (runAt (volume.directorySlots g clusters) found (slotsNeeded name)).2.2 := by
  have length := entrySlots_length name startCluster fileSize
  have count := slotsNeeded_eq ascii short
  obtain ⟨⟨before, behind, split⟩, fits, offset, free⟩ :=
    findFreeDirSlots_some directory.holds directory.nonzero (slotsNeeded_pos name) search
  have distinct := nodup_addresses directory.holds
  have offsets : ∀ address ∈ directoryAddresses g clusters, 32 ∣ address.offset := fun _ mem => aligned mem
  have orderly := directory.orderly
  unfold directorySlots at orderly ⊢
  rw [split] at distinct offsets orderly
  have filled : (volume.writeSlots g found 0 (entrySlots name startCluster fileSize)).directorySlots g clusters =
      volume.slots before ++ (runAddresses found (slotsNeeded name)).zip (entrySlots name startCluster fileSize) ++
        volume.slots behind := by
    unfold directorySlots
    rw [split, ← length]
    rw [← length] at fits distinct offsets
    exact slots_writeSlots fits offset distinct offsets
  have holds : (volume.writeSlots g found 0 (entrySlots name startCluster fileSize)).Holds g start clusters :=
    directory.holds.congr fun _ _ => congrFun writeSlots_frame.1 _
  rw [readDirectory_eq holds directory.nonzero, readDirectory_eq directory.holds directory.nonzero, filled]
  unfold directorySlots
  rw [split, runAt_eq (slotsNeeded_pos name) distinct]
  have old : volume.slots (before ++ runAddresses found (slotsNeeded name) ++ behind) =
      volume.slots before ++ volume.slots (runAddresses found (slotsNeeded name)) ++ volume.slots behind := by simp [slots]
  rw [old] at orderly ⊢
  apply filled_perm_iff orderly
  · intro place mem
    obtain ⟨address, inside, rfl⟩ := mem_map.mp mem
    exact free address inside
  · rw [slotsNeeded, runAddresses_succ]
    simp [slots]
  · intro state more
    have places : runAddresses found (slotsNeeded name) =
        runAddresses found (slotsNeeded name - 1) ++ [⟨found.lba, found.offset + 32 * (slotsNeeded name - 1)⟩] := by
      rw [slotsNeeded, Nat.add_sub_cancel]
      simp [runAddresses, range_succ]
    rw [places]
    exact readSlots_entry ascii short positive startCluster fileSize (by simp [runAddresses, count]) _ state more

theorem clusterAddresses_head (g : Geometry) (cluster : Nat) :
    ∃ rest, clusterAddresses g cluster = ⟨g.clusterToLBA cluster, 0⟩ :: rest := by
  have size := bytesPerSector_eq g
  have some_slot : g.bytesPerSector / 32 ≠ 0 := by
    have := g.sector_pos
    omega
  obtain ⟨sectors, first⟩ := Nat.exists_eq_succ_of_ne_zero (Nat.pos_iff_ne_zero.mp g.cluster_pos)
  obtain ⟨slots, snd⟩ := Nat.exists_eq_succ_of_ne_zero some_slot
  unfold clusterAddresses sectorAddresses
  rw [first, snd, range_succ_eq_map, range_succ_eq_map]
  exact ⟨_, rfl⟩

theorem grown_safe {newc : Nat} (dir : Directory g volume start clusters) (grown : Grown g volume start clusters [newc] after)
    (pos : 0 < needed) :
    SafeRun (runAt (after.directorySlots g (clusters ++ [newc])) ⟨g.clusterToLBA newc, 0⟩ needed).1
        (runAt (after.directorySlots g (clusters ++ [newc])) ⟨g.clusterToLBA newc, 0⟩ needed).2.1
        (runAt (after.directorySlots g (clusters ++ [newc])) ⟨g.clusterToLBA newc, 0⟩ needed).2.2 ↔
      ∀ slot ∈ (volume.directorySlots g clusters).map Prod.snd, slot.neverUsed = false := by
  obtain ⟨rest, head⟩ := clusterAddresses_head g newc
  have new : directoryAddresses g [newc] = ⟨g.clusterToLBA newc, 0⟩ :: rest := by
    unfold directoryAddresses
    rw [flatMap_cons, flatMap_nil, append_nil, head]
  have isFirst : (⟨g.clusterToLBA newc, 0⟩ : Address) ∈ clusterAddresses g newc := head ▸ .head _
  have isNew := mem_singleton_self newc
  have out : ∀ entry ∈ volume.directorySlots g clusters, (entry.1 != ⟨g.clusterToLBA newc, 0⟩) = true := by
    intro entry mem
    obtain ⟨addr, hin, rfl⟩ := mem_map.mp mem
    obtain ⟨cluster, isOld, place⟩ := mem_flatMap.mp hin
    have ne : cluster ≠ newc := fun eq => grown.fresh dir.holds isNew (eq ▸ isOld)
    have low := (dir.holds.inRange cluster isOld).1
    simp only [bne_iff_ne, ne_eq]
    rintro rfl
    exact clusterAddresses_apart ne low (grown.inRange isNew).1 place isFirst
  have h : ((⟨g.clusterToLBA newc, 0⟩ : Address) != ⟨g.clusterToLBA newc, 0⟩) = false := by simp
  rw [grown.directorySlots_eq dir.holds, new]
  unfold runAt
  rw [takeWhile_append_of_pos out, dropWhile_append_of_pos out]
  obtain ⟨more, rfl⟩ := Nat.exists_eq_succ_of_ne_zero (Nat.pos_iff_ne_zero.mp pos)
  simp only [map_cons, takeWhile_cons, dropWhile_cons, h, Bool.false_eq_true, if_false, append_nil,
    take_succ_cons, drop_succ_cons]
  have zeros : ∀ slot ∈ ((rest.map fun addr => (addr, (fun _ => 0 : Slot))).drop more).map Prod.snd,
      Slot.neverUsed slot = true := by
    intro slot mem
    obtain ⟨entry, hin, rfl⟩ := mem_map.mp mem
    obtain ⟨addr, _, rfl⟩ := mem_map.mp (mem_of_mem_drop hin)
    rfl
  constructor
  · exact And.left
  · intro hr
    refine ⟨hr, fun _ slot mem => ?_, fun used => ?_⟩
    · have unused := zeros slot (takeWhile_subset _ mem)
      have := mem_takeWhile_imp mem
      rw [unused] at this
      exact nomatch this
    · exact nomatch used (fun _ => 0) (.head _)

theorem insertion_perm_iff (sector : g.bytesPerSector = 512) (dir : Directory g volume start clusters) (ascii : Ascii name)
    (pos : 0 < name.length) (short : name.length ≤ 195)
    (created : volume.createDirectoryEntry g start name startCluster fileSize = (after, some place)) :
    (after.readDirectory g start).1.Perm (⟨name, shortSlot (makeSFNFromName name) startCluster fileSize, place⟩ ::
      (volume.readDirectory g start).1) ↔ InsertionSafe g volume start clusters name := by
  have count := slotsNeeded_eq ascii (by omega)
  have chars : (toUtf16 name).length = name.length := by rw [toUtf16_ascii ascii (by omega), length_map]
  unfold createDirectoryEntry at created
  dsimp only at created
  rw [if_neg (by omega)] at created
  cases room : volume.makeRoom g start (((toUtf16 name).length + 12) / 13 + 1) maxExpandAttempts with
  | mk expanded answer =>
    rw [room] at created
    cases answer with
    | none => exact nomatch created
    | some hf =>
      obtain ⟨rfl, rfl⟩ : expanded.writeSlots g hf 0 (entrySlots name startCluster fileSize) = after ∧
          hf.shift g (((toUtf16 name).length + 12) / 13) = place := by simpa using created
      have fits : slotsNeeded name ≤ g.bytesPerSector / 32 := by omega
      rcases makeRoom_small dir.holds dir.nonzero (Nat.succ_pos _) fits room with
        ⟨search, rfl⟩ | ⟨search, newc, grown, rfl⟩
      · have h : expanded.findFreeDirSlots g start (slotsNeeded name) = some hf := search
        obtain ⟨_, bound, _⟩ := findFreeDirSlots_some dir.holds dir.nonzero (slotsNeeded_pos name) h
        have last : hf.shift g (((toUtf16 name).length + 12) / 13) =
            ⟨hf.lba, hf.offset + 32 * (slotsNeeded name - 1)⟩ := shift_eq (by omega)
        rw [last, filled_iff dir ascii (by omega) pos h]
        unfold InsertionSafe
        rw [h]
      · have again : expanded.findFreeDirSlots g start (slotsNeeded name) = some ⟨g.clusterToLBA newc, 0⟩ := by
          obtain ⟨extra, more, hf⟩ := @makeRoom_grown g volume start (slotsNeeded name) clusters maxExpandAttempts
            dir.holds dir.nonzero
          unfold slotsNeeded at hf
          rw [room] at hf
          exact hf _ rfl
        have h : volume.findFreeDirSlots g start (slotsNeeded name) = none := search
        have last : (⟨g.clusterToLBA newc, 0⟩ : Address).shift g (((toUtf16 name).length + 12) / 13) =
            ⟨g.clusterToLBA newc, 0 + 32 * (slotsNeeded name - 1)⟩ := shift_eq (by dsimp only; omega)
        rw [last, ← grown.readDirectory_eq dir, filled_iff (grown.orderly dir) ascii (by omega) pos again,
          grown_safe dir grown (slotsNeeded_pos name)]
        unfold InsertionSafe
        rw [h]

/-! ## Finding the entry -/

theorem find_unique {listing : List Listed} {entry : Listed} {p : Listed → Bool} (mem : entry ∈ listing) (matches_ : p entry = true)
    (others : ∀ listed ∈ listing, p listed = true → listed = entry) : listing.find? p = some entry := by
  cases hf : listing.find? p with
  | none => exact absurd matches_ (find?_eq_none.mp hf entry mem)
  | some listed => rw [others listed (mem_of_find?_eq_some hf) (find?_some hf)]

theorem sameName_refl (name : Name) : sameName name name = true := beq_self_eq_true _

theorem found_of_perm {entry : Listed} (absent : volume.findFileInDir g name start = none)
    (perm : (after.readDirectory g start).1.Perm (entry :: (volume.readDirectory g start).1)) (eq : entry.name = name) :
    after.findFileInDir g name start = some entry := by
  have none := find?_eq_none.mp absent
  refine find_unique (perm.mem_iff.mpr (.head _)) (eq ▸ sameName_refl _) fun listed mem isMatch => ?_
  rcases mem_cons.mp (perm.mem_iff.mp mem) with isNew | isOld
  · exact isNew
  · exact absurd isMatch (none listed isOld)

/-! ## Renaming -/

theorem entrySlots_orderly (ascii : Ascii name) (short : name.length ≤ 255) (startCluster fileSize : Nat) :
    Orderly (entrySlots name startCluster fileSize) := by
  have few : ((toUtf16 name).length + 12) / 13 < 21 := by
    rw [toUtf16_ascii ascii short, length_map]
    omega
  have isEntry := isEntry_iff.mpr ⟨(shortSlot_entry ascii startCluster fileSize).1, (shortSlot_entry ascii startCluster fileSize).2,
    shortSlot_isLong _ startCluster fileSize⟩
  exact .entry (longSlots_group _ _ few) isEntry .nil

theorem Inserted.directory (ins : Inserted g volume start clusters extra (entrySlots name startCluster fileSize) place expanded after)
    (dir : Directory g volume start clusters) (ascii : Ascii name) (short : name.length ≤ 255) :
    Directory g after start (clusters ++ extra) := by
  obtain ⟨hf, pre, behind, free, split, -, filled⟩ := ins.slots
  refine ⟨ins.holds, dir.nonzero, ?_⟩
  have ord := (ins.grown.orderly dir).orderly
  have length := entrySlots_length name startCluster fileSize
  unfold directorySlots at ord
  rw [split] at ord
  simp only [Volume.slots, map_append] at ord
  rw [filled]
  simp only [map_append]
  have content : ((runAddresses hf (entrySlots name startCluster fileSize).length).zip
      (entrySlots name startCluster fileSize)).map Prod.snd = entrySlots name startCluster fileSize :=
    map_snd_zip (by simp [runAddresses])
  have isFree : ∀ slot ∈ ((runAddresses hf (entrySlots name startCluster fileSize).length).map
      fun addr => (addr, expanded.slot addr)).map Prod.snd, slot.isFree = true := by
    intro slot mem
    obtain ⟨entry, hin, rfl⟩ := mem_map.mp mem
    obtain ⟨addr, isRun, rfl⟩ := mem_map.mp hin
    exact free addr isRun
  have nonempty : ((runAddresses hf (entrySlots name startCluster fileSize).length).map
      fun addr => (addr, expanded.slot addr)).map Prod.snd ≠ [] := by
    rw [length, slotsNeeded, runAddresses_succ]
    simp
  obtain ⟨left, right⟩ := Orderly.split_run isFree nonempty ord
  rw [content]
  exact (left.append (entrySlots_orderly ascii short startCluster fileSize)).append right

theorem removed_directory {listed : Listed} (directory : Directory g volume start clusters)
    (mem : listed ∈ (volume.readDirectory g start).1) : ∃ front first back, first.address = listed.address ∧
      (volume.readDirectory g start).1 = front ++ first :: back ∧
      ((volume.removeDirectoryEntryAndLFNs g start listed.address).readDirectory g start).1 = front ++ back := by
  have reading := readDirectory_eq directory.holds directory.nonzero
  rw [reading] at mem
  obtain ⟨before, behind, split, isEntry, used⟩ := listed_place mem
  obtain ⟨places, rest, addresses, rfl, tail⟩ := map_eq_append_iff.mp split
  obtain ⟨address, others, rfl, same, rfl⟩ := map_eq_cons_iff.mp tail
  obtain ⟨rfl, content⟩ := Prod.mk.inj same
  have removed := removeDirectoryEntryAndLFNs_spec directory.holds directory.nonzero addresses
  obtain ⟨kept, gone, rfl, long, marks⟩ := removed.marks
  have distinct := nodup_addresses directory.holds
  have offsets : ∀ address ∈ directoryAddresses g clusters, 32 ∣ address.offset := fun _ inside => aligned inside
  rw [addresses] at distinct offsets
  have apart := nodup_append.mp distinct
  have keptApart := nodup_append.mp apart.1
  have notEntry := (nodup_cons.mp apart.2.1).1
  have old : volume.directorySlots g clusters =
      volume.slots kept ++ volume.slots gone ++ (listed.address, volume.slot listed.address) :: volume.slots others := by
    unfold directorySlots
    rw [addresses]
    simp [slots]
  have new : (volume.removeDirectoryEntryAndLFNs g start listed.address).directorySlots g clusters =
      volume.slots kept ++ (volume.slots gone).map (Prod.map id Slot.marked) ++
        (listed.address, (volume.slot listed.address).marked) :: volume.slots others := by
    unfold directorySlots
    rw [addresses]
    simp only [slots, map_append, map_cons, map_map]
    congr 1
    · congr 1
      · apply map_congr_left
        intro address inside
        rw [marks address (offsets address (by simp [inside])), if_neg]
        rintro (rfl | isGone)
        · grind
        · exact keptApart.2.2 address inside address isGone rfl
      · apply map_congr_left
        intro address inside
        rw [marks address (offsets address (by simp [inside])), if_pos (.inr inside)]
        rfl
    · congr 1
      · grind
      · apply map_congr_left
        intro address inside
        rw [marks address (offsets address (by simp [inside])), if_neg]
        rintro (rfl | isGone)
        · exact notEntry inside
        · grind
  have holds : (volume.removeDirectoryEntryAndLFNs g start listed.address).Holds g start clusters :=
    directory.holds.congr fun _ _ => congrFun removed.fat _
  have orderly := directory.orderly
  rw [old] at orderly
  rw [reading, readDirectory_eq holds directory.nonzero, old, new]
  refine removed_listing orderly (content ▸ isEntry) ?_ ?_ _
  · intro place inside
    obtain ⟨address, isGone, rfl⟩ := mem_map.mp inside
    exact long address isGone
  · intro place inside
    apply used place
    rw [map_append]
    exact mem_append_left _ inside

theorem slot_congr {other : Volume} (eq : other.sectors place.lba = volume.sectors place.lba) :
    other.slot place = volume.slot place := by
  unfold slot
  rw [eq]

theorem listed_address {listed : Listed} (holds : volume.Holds g start clusters) (nz : start ≠ 0)
    (mem : listed ∈ (volume.readDirectory g start).1) : volume.slot listed.address = listed.entry ∧ listed.entry.isEntry = true ∧
      ∃ pre behind, directoryAddresses g clusters = pre ++ listed.address :: behind := by
  rw [readDirectory_eq holds nz] at mem
  obtain ⟨pre, behind, split, isEntry, -⟩ := listed_place mem
  obtain ⟨places, rest, addresses, rfl, tail⟩ := map_eq_append_iff.mp split
  obtain ⟨addr, others, rfl, eq, rfl⟩ := map_eq_cons_iff.mp tail
  obtain ⟨rfl, content⟩ := Prod.mk.inj eq
  exact ⟨content, isEntry, places, others, addresses⟩

theorem Inserted.place_ne {listed : Listed} (ins : Inserted g volume start clusters extra (entrySlots name startCluster fileSize)
    place expanded after) (holds : volume.Holds g start clusters) (nz : start ≠ 0)
    (mem : listed ∈ (volume.readDirectory g start).1) : place ≠ listed.address := by
  rintro rfl
  obtain ⟨hf, pre, behind, free, split, last, -⟩ := ins.slots
  obtain ⟨content, isEntry, front, back, addresses⟩ := listed_address holds nz mem
  have hin : listed.address ∈ directoryAddresses g clusters := by simp [addresses]
  obtain ⟨cluster, isOld, h⟩ := mem_flatMap.mp hin
  have eq := ins.grown.slot_eq (holds.inRange cluster isOld).1 (fun isNew => ins.grown.fresh holds isNew isOld) h
  have inRun : listed.address ∈ runAddresses hf (entrySlots name startCluster fileSize).length := by
    rw [last, entrySlots_length]
    exact mem_map.mpr ⟨slotsNeeded name - 1, mem_range.mpr (Nat.sub_lt (slotsNeeded_pos name) Nat.one_pos), rfl⟩
  have isFree := free listed.address inRun
  rw [eq, content] at isFree
  simp [Slot.isEntry, isFree] at isEntry

theorem removed_elsewhere {others : List Nat} {listed : Listed} {first : Nat} (holds : volume.Holds g start clusters) (nz : start ≠ 0)
    (elsewhere : volume.Holds g first others) (snd : first ≠ 0) (ne : ∀ cluster ∈ others, cluster ∉ clusters)
    {pre behind : List Address} (split : directoryAddresses g others = pre ++ listed.address :: behind) :
    (volume.removeDirectoryEntryAndLFNs g first listed.address).readDirectory g start = volume.readDirectory g start := by
  have removed := removeDirectoryEntryAndLFNs_spec elsewhere snd split
  have kept : (volume.removeDirectoryEntryAndLFNs g first listed.address).Holds g start clusters :=
    holds.congr fun _ _ => congrFun removed.fat _
  have eq : (volume.removeDirectoryEntryAndLFNs g first listed.address).directorySlots g clusters = volume.directorySlots g clusters := by
    apply map_congr_left
    intro addr mem
    rw [slot_congr (removed.sectors addr.lba ?_)]
    intro isOther
    obtain ⟨cluster, isCluster, s, low, lba⟩ := mem_sectorLBAs.mp (address_lba mem)
    obtain ⟨other, isOther, t, high, eq⟩ := mem_sectorLBAs.mp isOther
    have dist : cluster ≠ other := fun equal => ne other isOther (equal ▸ isCluster)
    exact lba_apart dist (holds.inRange cluster isCluster).1 (elsewhere.inRange other isOther).1 low high (lba.trans eq.symm)
  rw [readDirectory_eq kept nz, readDirectory_eq holds nz, eq]

theorem startCluster_lt (slot : Slot) : slot.startCluster < 2 ^ 32 ∧ slot.fileSize < 2 ^ 32 := by
  have word : ∀ low high : Fin 32, slot.word low high < 65536 := by
    intro low high
    have first := (slot low).toNat_lt
    have snd := (slot high).toNat_lt
    unfold Slot.word
    omega
  have a := word 26 27
  have b := word 20 21
  have c := word 28 29
  have d := word 30 31
  unfold Slot.startCluster Slot.fileSize
  omega

theorem renamed_found {oldStart : Nat} {oldClusters : List Nat} {oldName : Name} (sector : g.bytesPerSector = 512)
    (dir : Directory g volume start clusters) (oldDirectory : Directory g volume oldStart oldClusters)
    (ne : oldStart = start ∨ ∀ cluster ∈ oldClusters, cluster ∉ clusters) (ascii : Ascii name) (pos : 0 < name.length)
    (short : name.length ≤ 195) (safe : InsertionSafe g volume start clusters name)
    (renamed : volume.renameIn g oldStart oldName start name = (after, true)) :
    ∃ old entry, volume.findFileInDir g oldName oldStart = some old ∧ after.findFileInDir g name start = some entry ∧
      entry.entry.startCluster = old.entry.startCluster ∧ entry.entry.fileSize = old.entry.fileSize := by
  unfold renameIn at renamed
  split at renamed
  · exact nomatch renamed
  · rename_i old hf
    have mem := mem_of_find?_eq_some hf
    have bounds := startCluster_lt old.entry
    have fields := shortSlot_fields (makeSFNFromName name) bounds.1 bounds.2
    split at renamed
    · exact nomatch renamed
    · split at renamed
      · exact nomatch renamed
      · rename_i absent
        rw [Option.not_isSome_iff_eq_none] at absent
        split at renamed
        · exact nomatch renamed
        · rename_i created place creation
          obtain ⟨rfl, -⟩ := Prod.mk.inj renamed
          have perm := (insertion_perm_iff sector dir ascii pos short creation).mpr safe
          obtain ⟨extra, expanded, _, _, success⟩ := @createDirectoryEntry_spec g volume name start old.entry.startCluster
            old.entry.fileSize clusters dir.holds dir.nonzero
          rw [creation] at success
          have ins := success place rfl
          have new := ins.directory dir ascii (by omega)
          refine ⟨old, ⟨name, shortSlot (makeSFNFromName name) old.entry.startCluster old.entry.fileSize, place⟩, hf, ?_, fields⟩
          rcases ne with rfl | ne
          · have stillListed := perm.mem_iff.mpr (.tail _ mem)
            obtain ⟨front, first, back, addr, listing, removal⟩ := removed_directory new stillListed
            have none := find?_eq_none.mp absent
            have inListing := perm.mem_iff.mpr (.head _)
            have notFirst := ins.place_ne dir.holds dir.nonzero mem
            unfold findFileInDir
            rw [removal]
            rw [listing] at inListing
            refine find_unique ?_ (sameName_refl name) fun listed hin isMatch => ?_
            · simp only [mem_append, mem_cons] at inListing ⊢
              rcases inListing with inFront | isFirst | inBack
              · exact .inl inFront
              · grind
              · exact .inr inBack
            · have inListing : listed ∈ (created.readDirectory g oldStart).1 := by
                rw [listing]
                simp only [mem_append, mem_cons] at hin ⊢
                exact hin.imp_right .inr
              rcases mem_cons.mp (perm.mem_iff.mp inListing) with isNew | isOld
              · exact isNew
              · exact absurd isMatch (none listed isOld)
          · obtain ⟨-, -, pre, behind, split⟩ := listed_address oldDirectory.holds oldDirectory.nonzero mem
            have newApart : ∀ cluster ∈ oldClusters, cluster ∉ clusters ++ extra := by
              intro cluster isOld hin
              rcases mem_append.mp hin with isNewDir | isExtra
              · exact ne cluster isOld isNewDir
              · exact oldDirectory.holds.inUse isOld (ins.grown.free cluster isExtra)
            unfold findFileInDir
            rw [removed_elsewhere new.holds new.nonzero (ins.keeps oldDirectory.holds ne) oldDirectory.nonzero newApart split]
            exact found_of_perm absent perm rfl

theorem Inserted.slot_place (ins : Inserted g volume start clusters extra (entrySlots name startCluster fileSize)
    place expanded after) : after.slot place = shortSlot (makeSFNFromName name) startCluster fileSize := by
  obtain ⟨hf, pre, behind, _, rfl, fits, off, rfl, _⟩ := ins.room
  have length := entrySlots_length name startCluster fileSize
  have pos := slotsNeeded_pos name
  have written := @slot_writeSlots g expanded hf (entrySlots name startCluster fileSize) 0
    ((entrySlots name startCluster fileSize).length - 1) (by omega) off (by omega)
  rw [Nat.zero_add] at written
  rw [written]
  have last : (entrySlots name startCluster fileSize).getLast? = some (shortSlot (makeSFNFromName name) startCluster fileSize) :=
    getLast?_concat
  rw [getLast?_eq_getElem?, getElem?_eq_getElem (by omega)] at last
  exact Option.some.inj last

/-! ## The entry is visible -/

/-- The listing gained the entry at the place that was reported, and the name is found there. -/
def EntryVisible (g : Geometry) (volume after : Volume) (start : Nat) (name : Name) (startCluster fileSize : Nat)
    (place : Address) : Prop :=
  ∃ entry : Listed, entry.name = name ∧ entry.entry.startCluster = startCluster ∧ entry.entry.fileSize = fileSize ∧
    entry.address = place ∧ (after.readDirectory g start).2 = true ∧
    (after.readDirectory g start).1.Perm (entry :: (volume.readDirectory g start).1) ∧
    after.findFileInDir g name start = some entry

/-- A file of this directory or another one that is renamed to the name is found under it. -/
def RenameReaches (g : Geometry) (volume : Volume) (start : Nat) (clusters : List Nat) (name : Name) : Prop :=
  ∀ oldStart oldClusters oldName after, Directory g volume oldStart oldClusters →
    (oldStart = start ∨ ∀ cluster ∈ oldClusters, cluster ∉ clusters) →
    volume.renameIn g oldStart oldName start name = (after, true) →
    ∃ old entry, volume.findFileInDir g oldName oldStart = some old ∧ after.findFileInDir g name start = some entry ∧
      entry.entry.startCluster = old.entry.startCluster ∧ entry.entry.fileSize = old.entry.fileSize

theorem created_visible_iff (sector : g.bytesPerSector = 512) (directory : Directory g volume start clusters) (ascii : Ascii name)
    (positive : 0 < name.length) (short : name.length ≤ 195) (absent : volume.findFileInDir g name start = none)
    (cluster : startCluster < 2 ^ 32) (size : fileSize < 2 ^ 32)
    (created : volume.createDirectoryEntry g start name startCluster fileSize = (after, some place)) :
    EntryVisible g volume after start name startCluster fileSize place ∧ RenameReaches g volume start clusters name ↔
      InsertionSafe g volume start clusters name := by
  have listed := insertion_perm_iff sector directory ascii positive short created
  have fields := shortSlot_fields (makeSFNFromName name) cluster size
  obtain ⟨extra, expanded, _, _, success⟩ := @createDirectoryEntry_spec g volume name start startCluster fileSize clusters
    directory.holds directory.nonzero
  rw [created] at success
  have ins := success place rfl
  constructor
  · rintro ⟨⟨entry, rfl, -, -, rfl, -, perm, -⟩, -⟩
    have mem := perm.mem_iff.mpr (.head _)
    have content := (listed_address ins.holds directory.nonzero mem).1
    rw [ins.slot_place] at content
    apply listed.mp
    rw [content]
    exact perm
  · intro safe
    have perm := listed.mpr safe
    refine ⟨⟨_, rfl, fields.1, fields.2, rfl, ?_, perm, found_of_perm absent perm rfl⟩, ?_⟩
    · rw [readDirectory_eq ins.holds directory.nonzero]
    · intro oldStart oldClusters oldName after oldDirectory ne renamed
      exact renamed_found sector directory oldDirectory ne ascii positive short safe renamed

end Volume

/-! ## A directory whose first cluster is full but for one slot -/

def smallGeometry : Geometry where
  bytesPerSector := 512
  sectorsPerCluster := 1
  firstDataSectorLBA := 100
  totalClusters := 10
  rootDirCluster := 2
  slotted := by decide
  sector_pos := by decide
  cluster_pos := by decide
  data_pos := by decide
  addressable := by decide

/-- Files `A`, `B` and so on in the root directory, and slots never used behind them. -/
def lettered (files : Nat) : Volume where
  fat := fun cluster => if cluster < 3 then endOfChain else 0
  nextFreeClusterHint := 3
  sectors := fun lba offset =>
    if lba = 100 ∧ offset < 32 * files then
      if offset % 32 = 0 then UInt8.ofNat (0x41 + offset / 32) else if offset % 32 < 12 then 0x20 else 0
    else 0

theorem lettered_directory {files : Nat}
    (single : ((lettered files).directorySlots smallGeometry [2]).all fun place => place.2.isFree || place.2.isEntry) :
    (lettered files).Directory smallGeometry 2 [2] := by
  refine ⟨⟨⟨rfl, rfl⟩, by decide⟩, by decide, Orderly.of_single fun slot mem => ?_⟩
  obtain ⟨place, hin, rfl⟩ := mem_map.mp mem
  exact Bool.or_eq_true_iff.mp (all_eq_true.mp single place hin)

namespace Volume

/-- Three files leave room in their sector. -/
theorem created_visible_iff_lettered :
    EntryVisible smallGeometry (lettered 3) ((lettered 3).createDirectoryEntry smallGeometry 2 [0x7A] 9 5).1 2 [0x7A] 9 5 ⟨100, 128⟩ ∧
        RenameReaches smallGeometry (lettered 3) 2 [2] [0x7A] ↔ InsertionSafe smallGeometry (lettered 3) 2 [2] [0x7A] :=
  created_visible_iff rfl (lettered_directory (by decide +kernel)) (by decide) (by decide) (by decide) (by decide +kernel)
    (by decide) (by decide) (Prod.ext rfl (by decide +kernel))

/-- Fifteen files leave one slot; the new entry comes behind it, and a file that is renamed is lost. -/
theorem created_not_visible : (lettered 15).Directory smallGeometry 2 [2] ∧ (lettered 15).findFileInDir smallGeometry [0x7A] 2 = none ∧
    ((lettered 15).createDirectoryEntry smallGeometry 2 [0x7A] 9 5).2 = some ⟨101, 32⟩ ∧
    ((lettered 15).createDirectoryEntry smallGeometry 2 [0x7A] 9 5).1.findFileInDir smallGeometry [0x7A] 2 = none ∧
    ((lettered 15).findFileInDir smallGeometry [0x41] 2).isSome = true ∧
    ((lettered 15).renameIn smallGeometry 2 [0x41] 2 [0x7A]).2 = true ∧
    ((lettered 15).renameIn smallGeometry 2 [0x41] 2 [0x7A]).1.findFileInDir smallGeometry [0x41] 2 = none ∧
    ((lettered 15).renameIn smallGeometry 2 [0x41] 2 [0x7A]).1.findFileInDir smallGeometry [0x7A] 2 = none := by
  refine ⟨lettered_directory ?_, ?_, ?_, ?_, ?_, ?_, ?_, ?_⟩ <;> decide +kernel

end Volume

end RosKernel.Fat32
