import RosKernel.Fat32.Room

/-! What removing an entry changes: its short slot is marked, and a run of long slots right before it. -/

set_option autoImplicit false

namespace RosKernel.Fat32

open Library List

variable {g : Geometry} {volume : Volume} {address entry : Address} {cluster start : Nat} {clusters : List Nat}

def sectorLBAs (g : Geometry) (clusters : List Nat) : List Nat :=
  clusters.flatMap fun c => (range g.sectorsPerCluster).map (g.clusterToLBA c + ·)

theorem directoryAddresses_eq (clusters : List Nat) :
    directoryAddresses g clusters = (sectorLBAs g clusters).flatMap (sectorAddresses g) := by
  unfold directoryAddresses sectorLBAs clusterAddresses
  rw [flatMap_assoc]
  simp [flatMap_map]

namespace Volume

theorem Holds.chainFrom_eq (holds : volume.Holds g start clusters) (nz : start ≠ 0) :
    volume.chainFrom (g.totalClusters + 3) start = clusters := by
  apply follow (motive := fun guard cur clusters => volume.chainFrom guard cur = clusters) holds nz _ _ (Nat.le_add_right ..)
  · intro guard cur ended
    cases guard with
    | zero => rfl
    | succ guard => rw [chainFrom, if_neg (by omega)]
  · intro guard cluster rest hin onward
    rw [chainFrom, if_pos ⟨hin.1, hin.lt_endOfChain⟩, onward]

theorem writeSlot_sectors {slot : Slot} {lba : Nat} (ne : lba ≠ address.lba) :
    (volume.writeSlot address slot).sectors lba = volume.sectors lba := Function.update_of_ne ne _ _

theorem deleteBackwards_spec {addresses : List Address} (dist : addresses.Nodup)
    (offsets : ∀ address ∈ addresses, 32 ∣ address.offset) : ∃ gone kept, addresses = gone ++ kept ∧
      (∀ address ∈ gone, (volume.slot address).isLong = true ∧ (volume.slot address).neverUsed = false) ∧
      (volume.deleteBackwards addresses).fat = volume.fat ∧
      (∀ lba, (∀ address ∈ addresses, lba ≠ address.lba) → (volume.deleteBackwards addresses).sectors lba = volume.sectors lba) ∧
      ∀ address, 32 ∣ address.offset → (volume.deleteBackwards addresses).slot address =
        if address ∈ gone then (volume.slot address).marked else volume.slot address := by
  induction addresses generalizing volume with
  | nil => exact ⟨[], [], rfl, forall_mem_nil _, rfl, fun _ _ => rfl, fun _ _ => rfl⟩
  | cons first rest ih =>
    obtain ⟨ne, dist⟩ := nodup_cons.mp dist
    have h := offsets first (.head _)
    have tailOffsets : ∀ address ∈ rest, 32 ∣ address.offset := fun address mem => offsets address (.tail _ mem)
    rw [deleteBackwards]
    by_cases stop : ((volume.slot first).neverUsed || !(volume.slot first).isLong) = true
    · refine ⟨[], first :: rest, rfl, forall_mem_nil _, ?_⟩
      rw [if_pos stop]
      exact ⟨rfl, fun _ _ => rfl, fun _ _ => rfl⟩
    · rw [if_neg stop]
      simp only [Bool.or_eq_true, Bool.not_eq_true', not_or, Bool.not_eq_true, Bool.not_eq_false] at stop
      have eq : ∀ address ∈ rest, (volume.markDeleted first).slot address = volume.slot address := by
        intro address mem
        apply slot_writeSlot_of_ne ?_ (tailOffsets address mem) h
        rintro rfl
        exact ne mem
      obtain ⟨gone, kept, split, long, fat, sectors, slots⟩ := @ih (volume.markDeleted first) dist tailOffsets
      refine ⟨first :: gone, kept, by rw [split, cons_append], ?_, fat, ?_, ?_⟩
      · refine forall_mem_cons.mpr ⟨⟨stop.2, stop.1⟩, fun address mem => ?_⟩
        have inRest : address ∈ rest := by simp [split, mem]
        rw [← eq address inRest]
        exact long address mem
      · intro lba out
        rw [sectors lba fun address mem => out address (.tail _ mem)]
        exact writeSlot_sectors (out first (.head _))
      · intro address hal
        rw [slots address hal]
        by_cases isFirst : address = first
        · subst isFirst
          have notGone : address ∉ gone := fun mem => ne (by simp [split, mem])
          rw [if_neg notGone, if_pos (.head _)]
          exact slot_writeSlot
        · have unmarked : (volume.markDeleted first).slot address = volume.slot address :=
            slot_writeSlot_of_ne isFirst hal h
          simp only [unmarked, mem_cons, isFirst, false_or]

theorem addresses_before (dist : (sectorLBAs g clusters).Nodup) (mem : entry ∈ directoryAddresses g clusters) :
    entry.lba ∈ sectorLBAs g clusters ∧ ∃ behind, directoryAddresses g clusters =
      ((sectorLBAs g clusters).takeWhile (· != entry.lba)).flatMap (sectorAddresses g) ++
        ((range (entry.offset / 32)).map fun i => (⟨entry.lba, 32 * i⟩ : Address)) ++ entry :: behind := by
  rw [directoryAddresses_eq] at mem ⊢
  obtain ⟨lba, isSector, hin⟩ := mem_flatMap.mp mem
  obtain ⟨i, bound, rfl⟩ := mem_sectorAddresses.mp hin
  refine ⟨isSector, ?_⟩
  obtain ⟨front, back, split⟩ := append_of_mem isSector
  rw [split] at dist ⊢
  have out : ∀ other ∈ front, (other != lba) = true := by
    intro other isFront
    have := (nodup_append.mp dist).2.2 other isFront lba (.head _)
    simpa using this
  obtain ⟨more, count⟩ : ∃ more, g.bytesPerSector / 32 = i + (1 + more) := ⟨g.bytesPerSector / 32 - i - 1, by omega⟩
  have sector : sectorAddresses g lba = ((range i).map fun i => (⟨lba, 32 * i⟩ : Address)) ++ ⟨lba, 32 * i⟩ ::
      (range more).map fun k => ⟨lba, 32 * (i + (1 + k))⟩ := by
    unfold sectorAddresses
    rw [count, range_add, range_add]
    simp [map_map, Function.comp_def]
  have ends : (lba :: back).takeWhile (· != lba) = [] := by simp
  refine ⟨((range more).map fun k => (⟨lba, 32 * (i + (1 + k))⟩ : Address)) ++ back.flatMap (sectorAddresses g), ?_⟩
  rw [takeWhile_append_of_pos out, ends, append_nil, flatMap_append, flatMap_cons,
    Nat.mul_div_cancel_left _ (by decide), sector]
  simp only [append_assoc, cons_append]

theorem nodup_sectorLBAs (holds : volume.Holds g start clusters) : (sectorLBAs g clusters).Nodup := by
  refine nodup_flatMap.mpr ⟨fun cluster _ => ?_, ?_⟩
  · refine List.Nodup.map ?_ nodup_range
    intro s t eq
    dsimp only at eq
    omega
  · refine List.Nodup.pairwise_of_forall_ne holds.nodup fun first isFirst snd isSecond ne lba inFirst inSecond => ?_
    obtain ⟨s, low, rfl⟩ := mem_map.mp inFirst
    obtain ⟨t, high, eq⟩ := mem_map.mp inSecond
    exact lba_apart ne (holds.inRange first isFirst).1 (holds.inRange snd isSecond).1 (mem_range.mp low)
      (mem_range.mp high) eq.symm

theorem mem_sectorLBAs {lba : Nat} : lba ∈ sectorLBAs g clusters ↔
    ∃ cluster ∈ clusters, ∃ s < g.sectorsPerCluster, g.clusterToLBA cluster + s = lba := by
  simp [sectorLBAs]

theorem address_lba (mem : address ∈ directoryAddresses g clusters) : address.lba ∈ sectorLBAs g clusters := by
  rw [directoryAddresses_eq] at mem
  obtain ⟨lba, isSector, hin⟩ := mem_flatMap.mp mem
  obtain ⟨i, _, rfl⟩ := mem_sectorAddresses.mp hin
  exact isSector

/-- What a removal leaves. -/
structure Removed (g : Geometry) (volume : Volume) (clusters : List Nat) (entry : Address) (before : List Address)
    (after : Volume) : Prop where
  fat : after.fat = volume.fat
  sectors : ∀ lba, lba ∉ sectorLBAs g clusters → after.sectors lba = volume.sectors lba
  marks : ∃ kept gone, before = kept ++ gone ∧
    (∀ address ∈ gone, (volume.slot address).isLong = true ∧ (volume.slot address).neverUsed = false) ∧
    ∀ address, 32 ∣ address.offset →
      after.slot address = if address = entry ∨ address ∈ gone then (volume.slot address).marked else volume.slot address

theorem removeDirectoryEntryAndLFNs_spec {before behind : List Address} (holds : volume.Holds g start clusters)
    (nonzero : start ≠ 0) (split : directoryAddresses g clusters = before ++ entry :: behind) :
    Removed g volume clusters entry before (volume.removeDirectoryEntryAndLFNs g start entry) := by
  have mem : entry ∈ directoryAddresses g clusters := by simp [split]
  have inRange : ∀ cluster ∈ clusters, 2 ≤ cluster := fun cluster inside => (holds.inRange cluster inside).1
  have distinct : (directoryAddresses g clusters).Nodup := nodup_directoryAddresses holds.nodup inRange
  have here : 32 ∣ entry.offset := aligned mem
  obtain ⟨isSector, others, places⟩ := addresses_before (nodup_sectorLBAs holds) mem
  -- both lists of places end where the entry is
  have same : before = ((sectorLBAs g clusters).takeWhile (· != entry.lba)).flatMap (sectorAddresses g) ++
      ((range (entry.offset / 32)).map fun i => (⟨entry.lba, 32 * i⟩ : Address)) := by
    rw [split] at places distinct
    have apart := nodup_append.mp distinct
    have first : entry ∉ before := fun inside => apart.2.2 entry inside entry (.head _) rfl
    have second : entry ∉ behind := (nodup_cons.mp apart.2.1).1
    exact ((append_cons_inj_of_notMem first second).mp places).1
  have walked : (volume.markDeleted entry).chainFrom (g.totalClusters + 3) start = clusters :=
    Holds.chainFrom_eq (holds.congr fun _ _ => rfl) nonzero
  have removal : volume.removeDirectoryEntryAndLFNs g start entry = (volume.markDeleted entry).deleteBackwards before.reverse := by
    unfold removeDirectoryEntryAndLFNs
    dsimp only
    rw [walked, same]
    exact if_pos isSector
  have reversed : before.reverse.Nodup := by
    rw [split] at distinct
    exact nodup_reverse.mpr (nodup_append.mp distinct).1
  have inBefore : ∀ address ∈ before, address ∈ directoryAddresses g clusters := fun address inside => by simp [split, inside]
  have offsets : ∀ address ∈ before.reverse, 32 ∣ address.offset :=
    fun address inside => aligned (inBefore address (mem_reverse.mp inside))
  have unmarked : ∀ address, 32 ∣ address.offset → address ≠ entry →
      (volume.markDeleted entry).slot address = volume.slot address :=
    fun address first apart => slot_writeSlot_of_ne apart first here
  obtain ⟨gone, kept, parts, long, fat, sectors, slots⟩ := @deleteBackwards_spec (volume.markDeleted entry) _ reversed offsets
  have isBefore : ∀ address ∈ gone, address ∈ before := by
    intro address inside
    apply mem_reverse.mp
    rw [parts]
    exact mem_append_left _ inside
  have apart : ∀ address ∈ gone, address ≠ entry := by
    intro address inside isEntry
    rw [split] at distinct
    exact (nodup_append.mp distinct).2.2 address (isBefore address inside) entry (.head _) isEntry
  rw [removal]
  refine ⟨fat, fun lba outside => ?_, kept.reverse, gone.reverse, ?_, ?_, ?_⟩
  · rw [sectors lba, markDeleted, writeSlot_sectors]
    · rintro rfl
      exact outside (address_lba mem)
    · rintro address inside rfl
      exact outside (address_lba (inBefore address (mem_reverse.mp inside)))
  · rw [← reverse_append, ← parts, reverse_reverse]
  · intro address inside
    have inGone := mem_reverse.mp inside
    rw [← unmarked address (aligned (inBefore address (isBefore address inGone))) (apart address inGone)]
    exact long address inGone
  · intro address first
    rw [slots address first]
    by_cases isEntry : address = entry
    · subst isEntry
      rw [if_neg fun inside => apart address inside rfl, if_pos (.inl rfl)]
      exact slot_writeSlot
    · rw [unmarked address first isEntry]
      simp [isEntry]

end Volume

end RosKernel.Fat32
