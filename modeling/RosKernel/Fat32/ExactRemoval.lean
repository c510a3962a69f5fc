import RosKernel.Fat32.Insertion

/-! `RemoveDirectoryEntryAndLFNs` takes one name from a directory.

The walk backwards goes over deleted slots as well, but in a well-formed directory it comes to no
long slot of another entry: behind such a slot there is the short one before any that is deleted.
-/

set_option autoImplicit false

namespace RosKernel.Fat32

open Library List

variable {g : Geometry} {volume : Volume} {start : Nat} {clusters : List Nat} {entry : Listed} {state : LongName}
  {places : List (Address × Slot)} {slot : Slot} {first second : List Slot}

theorem Orderly.run_ends (isLong : slot.isLong = true) (used : slot.isFree = false) (ord : Orderly (first ++ slot :: second)) :
    ∃ longs short rest, second = longs ++ short :: rest ∧ (∀ long ∈ longs, long.isFree = false) ∧ short.isEntry = true := by
  generalize whole : first ++ slot :: second = slots at ord
  induction ord generalizing first with
  | nil => simp at whole
  | @free head rest headFree tail ih =>
    cases first with
    | nil =>
      obtain ⟨rfl, -⟩ := cons.inj whole
      exact nomatch used.symm.trans headFree
    | cons other first => exact ih (cons.inj whole).2
  | @entry longs short rest group isEntry tail ih =>
    rcases append_eq_append_iff.mp whole with ⟨mid, longsSplit, eq⟩ | ⟨mid, firstSplit, eq⟩
    · cases mid with
      | nil =>
        obtain ⟨rfl, -⟩ := cons.inj eq
        simp [Slot.isEntry, isLong] at isEntry
      | cons head mid =>
        obtain ⟨rfl, behind⟩ := cons.inj eq
        exact ⟨mid, short, rest, behind, fun long mem => (group.used (by simp [longsSplit, mem])).2, isEntry⟩
    · cases mid with
      | nil =>
        obtain ⟨rfl, -⟩ := cons.inj eq
        simp [Slot.isEntry, isLong] at isEntry
      | cons head mid => exact ih (cons.inj eq).2.symm

theorem listed_sublist (state : LongName) (places : List (Address × Slot)) :
    ((readSlots state places).1.map Listed.address).Sublist (places.map Prod.fst) := by
  induction places generalizing state with
  | nil => exact .slnil
  | cons place rest ih =>
    rw [readSlots, map_cons]
    split
    · exact nil_sublist _
    · split
      · exact (ih _).cons _
      · split
        · exact (ih _).cons _
        · exact (ih _).cons_cons _

namespace Volume

/-- From this slot on to the short slot of the entry there are long slots in use and no others. -/
def InOwnRun (g : Geometry) (volume : Volume) (clusters : List Nat) (entry address : Address) : Prop :=
  ∃ front run behind, directoryAddresses g clusters = front ++ address :: run ++ entry :: behind ∧
    ∀ other ∈ address :: run, (volume.slot other).isLong = true ∧ (volume.slot other).isFree = false

/-- The listing lacks the entry and nothing else, and only first bytes of its own slots are other ones. -/
structure RemovesExactly (g : Geometry) (volume : Volume) (start : Nat) (clusters : List Nat) (entry : Listed)
    (after : Volume) : Prop where
  listing : ∃ front back, volume.readDirectory g start = (front ++ entry :: back, true) ∧
    after.readDirectory g start = (front ++ back, true)
  bytes : ∀ lba offset, after.sectors lba offset ≠ volume.sectors lba offset →
    32 ∣ offset ∧ (⟨lba, offset⟩ = entry.address ∨ InOwnRun g volume clusters entry.address ⟨lba, offset⟩)
  fat : after.fat = volume.fat

theorem gone_own {entry : Address} {kept gone behind : List Address} (ord : Orderly ((volume.directorySlots g clusters).map Prod.snd))
    (split : directoryAddresses g clusters = kept ++ gone ++ entry :: behind)
    (long : ∀ addr ∈ gone, (volume.slot addr).isLong = true ∧ (volume.slot addr).neverUsed = false)
    {addr : Address} (mem : addr ∈ gone) (used : (volume.slot addr).deleted = false) :
    InOwnRun g volume clusters entry addr := by
  obtain ⟨pre, run, rfl⟩ := append_of_mem mem
  have isLive : (volume.slot addr).isFree = false := by
    simp [Slot.isFree, used, (long addr mem).2]
  have slots : (volume.directorySlots g clusters).map Prod.snd = (kept ++ pre).map volume.slot ++
      volume.slot addr :: (run.map volume.slot ++ volume.slot entry :: behind.map volume.slot) := by
    unfold directorySlots Volume.slots
    rw [split]
    simp [Function.comp_def]
  rw [slots] at ord
  obtain ⟨longs, short, rest, onward, live, isEntry⟩ := Orderly.run_ends (long addr mem).1 isLive ord
  refine ⟨kept ++ pre, run, behind, by simp [split], forall_mem_cons.mpr ⟨⟨(long addr mem).1, isLive⟩, ?_⟩⟩
  intro other inRun
  have isLong := (long other (by simp [inRun])).1
  refine ⟨isLong, ?_⟩
  have inSecond : volume.slot other ∈ run.map volume.slot := mem_map_of_mem inRun
  rcases append_eq_append_iff.mp onward with ⟨mid, longsSplit, -⟩ | ⟨mid, runSplit, eq⟩
  · exact live _ (by simp [longsSplit, mem_map_of_mem inRun])
  · -- the short slot is none of the run, all of which are long
    cases mid with
    | nil =>
      rw [append_nil] at runSplit
      exact live _ (runSplit ▸ inSecond)
    | cons head mid =>
      obtain ⟨rfl, -⟩ := cons.inj eq
      obtain ⟨third, inRun, isShort⟩ := mem_map.mp (show short ∈ run.map volume.slot by simp [runSplit])
      have := (long third (by simp [inRun])).1
      rw [isShort] at this
      simp [Slot.isEntry, this] at isEntry

theorem sectors_eq_slot (volume : Volume) (lba off : Nat) :
    volume.sectors lba off = volume.slot ⟨lba, 32 * (off / 32)⟩ ⟨off % 32, Nat.mod_lt _ (by decide)⟩ := by
  unfold Volume.slot slotAt
  rw [Nat.div_add_mod]

theorem listed_unique {first second : Listed} (holds : volume.Holds g start clusters) (nz : start ≠ 0)
    (mem : first ∈ (volume.readDirectory g start).1) (other : second ∈ (volume.readDirectory g start).1)
    (eq : first.address = second.address) : first = second := by
  have addresses : (volume.directorySlots g clusters).map Prod.fst = directoryAddresses g clusters := by
    simp [directorySlots, Volume.slots, Function.comp_def]
  have once : ((volume.readDirectory g start).1.map Listed.address).Nodup := by
    rw [readDirectory_eq holds nz]
    exact (addresses ▸ listed_sublist _ _).nodup (nodup_addresses holds)
  exact inj_on_of_nodup_map once mem other eq

theorem removal_exact (directory : Directory g volume start clusters) (member : entry ∈ (volume.readDirectory g start).1) :
    RemovesExactly g volume start clusters entry (volume.removeDirectoryEntryAndLFNs g start entry.address) := by
  have reading := readDirectory_eq directory.holds directory.nonzero
  obtain ⟨content, isEntry, pre, behind, split⟩ := listed_address directory.holds directory.nonzero member
  have removed := removeDirectoryEntryAndLFNs_spec directory.holds directory.nonzero split
  have holds : (volume.removeDirectoryEntryAndLFNs g start entry.address).Holds g start clusters :=
    directory.holds.congr fun _ _ => congrFun removed.fat _
  refine ⟨?_, ?_, removed.fat⟩
  · obtain ⟨front, first, back, addr, old, new⟩ := removed_directory directory member
    have inListing : first ∈ (volume.readDirectory g start).1 := by simp [old]
    obtain rfl : first = entry := listed_unique directory.holds directory.nonzero inListing member addr
    refine ⟨front, back, Prod.ext old ?_, Prod.ext new ?_⟩
    · rw [reading]
    · rw [readDirectory_eq holds directory.nonzero]
  · intro lba off changed
    obtain ⟨kept, gone, rfl, long, marks⟩ := removed.marks
    rw [sectors_eq_slot, sectors_eq_slot volume, marks _ (Nat.dvd_mul_right ..)] at changed
    split at changed
    case isFalse => exact absurd rfl changed
    case isTrue own =>
      have isFirst : off % 32 = 0 := by
        by_contra other
        exact changed (Function.update_of_ne (fun eq => other (congrArg Fin.val eq)) _ _)
      have h : 32 * (off / 32) = off := by omega
      rw [h] at own changed
      refine ⟨Nat.dvd_of_mod_eq_zero isFirst, own.imp_right fun isGone => ?_⟩
      refine gone_own directory.orderly split long isGone ?_
      -- a slot that was deleted has the mark as its first byte
      by_contra isDeleted
      rw [Bool.not_eq_false] at isDeleted
      apply changed
      have index : (⟨off % 32, Nat.mod_lt _ (by decide)⟩ : Fin 32) = 0 := Fin.ext isFirst
      rw [index]
      exact (Function.update_self ..).trans (eq_of_beq isDeleted).symm

/-- A root directory of one sector with these slots, and slots never used behind them. -/
def slotVolume (slots : List Slot) : Volume where
  fat := fun cluster => if cluster < 3 then endOfChain else 0
  nextFreeClusterHint := 3
  sectors := fun lba offset => if lba = 100 then slots.getD (offset / 32) (fun _ => 0) (Fin.ofNat 32 offset) else 0

theorem slotVolume_slots (slots : List Slot) : (slotVolume slots).directorySlots smallGeometry [2] =
    (range 16).map fun k => (⟨100, 32 * k⟩, slots.getD k fun _ => 0) := by
  have addresses : directoryAddresses smallGeometry [2] = (range 16).map fun k => ⟨100, 32 * k⟩ := by decide
  unfold directorySlots Volume.slots
  rw [addresses, map_map]
  refine map_congr_left fun k _ => Prod.ext rfl (funext fun i => ?_)
  have place : (32 * k + i) / 32 = k := by omega
  have byte : Fin.ofNat 32 (32 * k + i) = i := by
    apply Fin.ext
    simp
  change slots.getD ((32 * k + i) / 32) (fun _ => 0) (Fin.ofNat 32 (32 * k + i)) = _
  rw [place, byte]

theorem slotVolume_holds (slots : List Slot) : (slotVolume slots).Holds smallGeometry 2 [2] := ⟨⟨rfl, rfl⟩, by decide⟩

/-- Three files; the name of the second takes two long slots. -/
def threeFiles : Volume :=
  slotVolume (entrySlots [0x61] 9 5 ++ entrySlots (replicate 14 0x62) 10 6 ++ entrySlots [0x63] 11 7)

theorem threeFiles_directory : threeFiles.Directory smallGeometry 2 [2] := by
  refine ⟨slotVolume_holds _, by decide, ?_⟩
  rw [threeFiles, slotVolume_slots]
  have first : Ascii [0x61] := by decide
  have snd : Ascii (replicate 14 0x62) := by decide
  have third : Ascii [0x63] := by decide
  have files := ((entrySlots_orderly first (by decide) 9 5).append (entrySlots_orderly snd (by decide) 10 6)).append
    (entrySlots_orderly third (by decide) 11 7)
  have unused : ∀ slot : Slot, slot ∈ replicate 9 (fun _ => 0) → slot.isFree = true := by
    intro slot mem
    rw [eq_of_mem_replicate mem]
    rfl
  exact files.append (Orderly.of_single fun slot mem => .inl (unused slot mem))

/-- The file with the long name goes, with both its long slots. -/
theorem removal_exact_threeFiles : ∃ entry ∈ (threeFiles.readDirectory smallGeometry 2).1, entry.name = replicate 14 0x62 ∧
    RemovesExactly smallGeometry threeFiles 2 [2] entry
      (threeFiles.removeDirectoryEntryAndLFNs smallGeometry 2 entry.address) := by
  have inListing : ∃ entry ∈ (threeFiles.readDirectory smallGeometry 2).1, entry.name = replicate 14 0x62 := by
    decide +kernel
  obtain ⟨entry, mem, named⟩ := inListing
  exact ⟨entry, mem, named, removal_exact threeFiles_directory mem⟩

end Volume

end RosKernel.Fat32
