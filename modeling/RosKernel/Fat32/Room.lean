import RosKernel.Fat32.Slots

/-! Making room in a directory and writing an entry into it.

A directory grows by clusters of zeros that were free before. An entry changes the slots of the
run that was found and no other byte.
-/

set_option autoImplicit false

namespace RosKernel.Fat32

open Library List Option

variable {g : Geometry} {volume middle after : Volume} {address place : Address} {slot : Slot}
  {cluster last start needed : Nat} {clusters extra : List Nat}

namespace Volume

/-- A chain that got more clusters, free ones before and zeroed now. -/
structure Grown (g : Geometry) (volume : Volume) (start : Nat) (clusters extra : List Nat) (after : Volume) : Prop where
  holds : after.Holds g start (clusters ++ extra)
  free : ∀ cluster ∈ extra, volume.getNextCluster cluster = 0
  zero : ∀ cluster ∈ extra, ∀ s < g.sectorsPerCluster, after.sectors (g.clusterToLBA cluster + s) = fun _ => 0
  kept : ∀ cluster, 2 ≤ cluster → cluster ∉ extra → ∀ s < g.sectorsPerCluster,
    after.sectors (g.clusterToLBA cluster + s) = volume.sectors (g.clusterToLBA cluster + s)
  frame : ∀ cluster, cluster ∉ clusters → cluster ∉ extra → after.fat cluster = volume.fat cluster

namespace Grown

theorem refl (holds : volume.Holds g start clusters) : Grown g volume start clusters [] volume where
  holds := by rwa [append_nil]
  free := forall_mem_nil _
  zero := forall_mem_nil _
  kept := fun _ _ _ _ _ => rfl
  frame := fun _ _ _ => rfl

theorem fresh (grown : Grown g volume start clusters extra after) (holds : volume.Holds g start clusters)
    (mem : cluster ∈ extra) : cluster ∉ clusters :=
  fun isOld => holds.inUse isOld (grown.free cluster mem)

theorem inRange (grown : Grown g volume start clusters extra after) (mem : cluster ∈ extra) : g.InRange cluster :=
  grown.holds.inRange cluster (mem_append_right _ mem)

theorem trans {more : List Nat} (first : Grown g volume start clusters extra middle)
    (snd : Grown g middle start (clusters ++ extra) more after) : Grown g volume start clusters (extra ++ more) after where
  holds := by
    rw [← append_assoc]
    exact snd.holds
  free := by
    intro cluster mem
    rcases mem_append.mp mem with old | new
    · exact first.free cluster old
    · have fresh := snd.fresh first.holds new
      rw [mem_append, not_or] at fresh
      rw [← getNextCluster_congr (first.frame cluster fresh.1 fresh.2)]
      exact snd.free cluster new
  zero := by
    intro cluster mem s hin
    by_cases new : cluster ∈ more
    · exact snd.zero cluster new s hin
    · have old := (mem_append.mp mem).resolve_right new
      rw [snd.kept cluster (first.inRange old).1 new s hin]
      exact first.zero cluster old s hin
  kept := by
    intro cluster low ne s hin
    rw [mem_append, not_or] at ne
    rw [snd.kept cluster low ne.2 s hin, first.kept cluster low ne.1 s hin]
  frame := by
    intro cluster notOld ne
    rw [mem_append, not_or] at ne
    rw [snd.frame cluster (by simp [notOld, ne.1]) ne.2, first.frame cluster notOld ne.1]

section

variable (grown : Grown g volume start clusters extra after)
include grown

theorem keeps {others : List Nat} {first : Nat} (holds : volume.Holds g first others)
    (ne : ∀ cluster ∈ others, cluster ∉ clusters) : after.Holds g first others :=
  holds.congr fun cluster mem => grown.frame cluster (ne cluster mem)
    fun isNew => holds.inUse mem (grown.free cluster isNew)

theorem slot_eq (low : 2 ≤ cluster) (ne : cluster ∉ extra) (mem : address ∈ clusterAddresses g cluster) :
    after.slot address = volume.slot address := by
  obtain ⟨s, hin, i, _, rfl⟩ := mem_clusterAddresses.mp mem
  unfold Volume.slot
  rw [grown.kept cluster low ne s hin]

theorem slot_zero (isNew : cluster ∈ extra) (mem : address ∈ clusterAddresses g cluster) :
    after.slot address = fun _ => 0 := by
  obtain ⟨s, hin, i, _, rfl⟩ := mem_clusterAddresses.mp mem
  unfold Volume.slot
  rw [grown.zero cluster isNew s hin]
  rfl

theorem directorySlots_eq (holds : volume.Holds g start clusters) : after.directorySlots g (clusters ++ extra) =
      volume.directorySlots g clusters ++ (directoryAddresses g extra).map fun address => (address, fun _ => 0) := by
  unfold directorySlots slots directoryAddresses
  rw [flatMap_append, map_append]
  congr 1
  · apply map_congr_left
    intro address mem
    obtain ⟨cluster, isOld, hin⟩ := mem_flatMap.mp mem
    rw [grown.slot_eq (holds.inRange cluster isOld).1 (fun isNew => grown.fresh holds isNew isOld) hin]
  · apply map_congr_left
    intro address mem
    obtain ⟨cluster, isNew, hin⟩ := mem_flatMap.mp mem
    rw [grown.slot_zero isNew hin]

end

end Grown

theorem lastInChain_eq {guard : Nat} {pre : List Nat} {cur : Nat}
    (chain : Chain volume.next (some cur) (pre ++ [last])) (inRange : ∀ cluster ∈ pre ++ [last], g.InRange cluster)
    (enough : pre.length < guard) : volume.lastInChain guard cur = last := by
  induction pre generalizing cur guard with
  | nil =>
    obtain ⟨eq, ended⟩ := chain
    obtain rfl : cur = last := some.inj eq
    cases guard with
    | zero => exact absurd enough (Nat.not_lt_zero _)
    | succ guard =>
      rw [lastInChain, if_pos (Or.inl ?_)]
      rcases volume.next_cases cur with ⟨_, more⟩ | ⟨high, _⟩
      · exact nomatch ended.symm.trans more
      · exact high
  | cons cluster rest ih =>
    obtain ⟨eq, behind⟩ := chain
    obtain rfl : cur = cluster := some.inj eq
    cases guard with
    | zero => exact absurd enough (Nat.not_lt_zero _)
    | succ guard =>
      have snd : volume.next cur = (rest ++ [last]).head? := Chain.head_eq behind
      rcases volume.next_cases cur with ⟨low, more⟩ | ⟨_, none⟩
      · have hin : g.InRange (volume.getNextCluster cur) := by
          apply inRange
          rw [more] at snd
          exact .tail _ (mem_of_head? snd.symm)
        have pos := hin.1
        rw [lastInChain, if_neg (by omega)]
        exact ih (more ▸ behind) (fun node mem => inRange node (.tail _ mem))
          (Nat.lt_of_succ_lt_succ enough)
      · grind

theorem expandDirectory_spec (holds : volume.Holds g start clusters) (nz : start ≠ 0)
    (expanded : volume.expandDirectory g start = some after) : ∃ newc, Grown g volume start clusters [newc] after := by
  have chain := holds.chain
  rw [if_neg nz] at chain
  obtain rfl | ⟨pre, last, rfl⟩ := clusters.eq_nil_or_concat'
  · exact absurd holds.start_eq_zero nz
  · have short := holds.length_le
    rw [length_append] at short
    obtain ⟨⟨newc, linked⟩, alloc, rfl⟩ := Option.map_eq_some_iff.mp expanded
    rw [lastInChain_eq chain holds.inRange (by omega)] at alloc
    have ht := allocateCluster_spec alloc
    refine ⟨newc, ?_, ?_, ?_, ?_, ?_⟩
    · rw [append_assoc]
      exact (ht.lengthens holds).congr fun _ _ => rfl
    · simpa using ht.free
    · intro cluster mem s hin
      obtain rfl := mem_singleton.mp mem
      funext off
      exact if_pos ⟨Nat.le_add_right .., by omega⟩
    · intro cluster low ne s hin
      have other : cluster ≠ newc := fun eq => ne (mem_singleton.mpr eq)
      rw [writeCluster_sectors other low ht.inRange.1 hin, ht.sectors]
    · intro cluster notOld ne
      apply ht.frame cluster fun eq => ne (mem_singleton.mpr eq)
      refine Or.inr ?_
      rintro rfl
      exact notOld (by simp)

theorem makeRoom_grown {attempts : Nat} (holds : volume.Holds g start clusters) (nz : start ≠ 0) :
    ∃ extra, Grown g volume start clusters extra (volume.makeRoom g start needed attempts).1 ∧
      ∀ hf, (volume.makeRoom g start needed attempts).2 = some hf →
        (volume.makeRoom g start needed attempts).1.findFreeDirSlots g start needed = some hf := by
  induction attempts generalizing volume clusters with
  | zero =>
    unfold makeRoom
    cases search : volume.findFreeDirSlots g start needed with
    | none => exact ⟨[], .refl holds, fun _ none => nomatch none⟩
    | some hf => exact ⟨[], .refl holds, fun place eq => some.inj eq ▸ search⟩
  | succ attempts ih =>
    unfold makeRoom
    cases search : volume.findFreeDirSlots g start needed with
    | some hf => exact ⟨[], .refl holds, fun place eq => some.inj eq ▸ search⟩
    | none =>
      cases attempt : volume.expandDirectory g start with
      | none => exact ⟨[], .refl holds, fun _ none => nomatch none⟩
      | some expanded =>
        obtain ⟨newc, once⟩ := expandDirectory_spec holds nz attempt
        obtain ⟨extra, more, hf⟩ := ih once.holds
        exact ⟨newc :: extra, once.trans more, hf⟩

theorem freeInCluster_congr {other : Volume}
    (eq : ∀ s < g.sectorsPerCluster, other.sectors (g.clusterToLBA cluster + s) = volume.sectors (g.clusterToLBA cluster + s)) :
    other.freeInCluster g needed cluster = volume.freeInCluster g needed cluster := by
  unfold freeInCluster
  have sector : ∀ s ∈ range g.sectorsPerCluster,
      other.sectors (g.clusterToLBA cluster + s) = volume.sectors (g.clusterToLBA cluster + s) :=
    fun s mem => eq s (mem_range.mp mem)
  generalize range g.sectorsPerCluster = places at sector
  induction places with
  | nil => rfl
  | cons s rest ih =>
    have onward := ih fun t mem => sector t (.tail _ mem)
    dsimp only at onward ⊢
    rw [findSome?_cons, findSome?_cons, sector s (.head _), onward]

theorem freeInCluster_zero (pos : 0 < needed) (fits : needed ≤ g.bytesPerSector / 32)
    (zero : ∀ s < g.sectorsPerCluster, volume.sectors (g.clusterToLBA cluster + s) = fun _ => 0) :
    volume.freeInCluster g needed cluster = some ⟨g.clusterToLBA cluster, 0⟩ := by
  obtain ⟨more, count⟩ := Nat.exists_eq_succ_of_ne_zero (Nat.pos_iff_ne_zero.mp g.cluster_pos)
  have first := zero 0 g.cluster_pos
  unfold freeInCluster
  rw [count, range_succ_eq_map, findSome?_cons]
  dsimp only
  rw [first, range_eq_range', freeRun_zero (fun _ => rfl) pos (by omega)]
  rfl

theorem Grown.search_eq {newc : Nat} (grown : Grown g volume start clusters [newc] after)
    (holds : volume.Holds g start clusters) (nz : start ≠ 0) (pos : 0 < needed) (fits : needed ≤ g.bytesPerSector / 32)
    (search : volume.findFreeDirSlots g start needed = none) :
    after.findFreeDirSlots g start needed = some ⟨g.clusterToLBA newc, 0⟩ := by
  have old : clusters.findSome? (after.freeInCluster g needed) = none := by
    rw [findFreeDirSlots_eq holds nz pos] at search
    rw [findSome?_eq_none_iff] at search ⊢
    intro cluster mem
    have eq : after.freeInCluster g needed cluster = volume.freeInCluster g needed cluster :=
      freeInCluster_congr (grown.kept cluster (holds.inRange cluster mem).1 fun isNew => grown.fresh holds isNew mem)
    rw [eq]
    exact search cluster mem
  rw [findFreeDirSlots_eq grown.holds nz pos, findSome?_append, old,
    findSome?_singleton, freeInCluster_zero pos fits (grown.zero newc (.head _))]
  rfl

theorem makeRoom_small {attempts : Nat} (holds : volume.Holds g start clusters) (nz : start ≠ 0)
    (pos : 0 < needed) (fits : needed ≤ g.bytesPerSector / 32)
    (hf : volume.makeRoom g start needed attempts = (after, some place)) :
    volume.findFreeDirSlots g start needed = some place ∧ after = volume ∨
      volume.findFreeDirSlots g start needed = none ∧
        ∃ newc, Grown g volume start clusters [newc] after ∧ place = ⟨g.clusterToLBA newc, 0⟩ := by
  unfold makeRoom at hf
  cases search : volume.findFreeDirSlots g start needed with
  | some first =>
    rw [search] at hf
    obtain ⟨rfl, eq⟩ := Prod.mk.injEq .. ▸ hf
    exact Or.inl ⟨eq, rfl⟩
  | none =>
    rw [search] at hf
    cases attempts with
    | zero => exact nomatch hf
    | succ attempts =>
      cases attempt : volume.expandDirectory g start with
      | none => rw [attempt] at hf; exact nomatch hf
      | some expanded =>
        rw [attempt] at hf
        obtain ⟨newc, grown⟩ := expandDirectory_spec holds nz attempt
        have again := grown.search_eq holds nz pos fits search
        dsimp only at hf
        unfold makeRoom at hf
        rw [again] at hf
        obtain ⟨rfl, eq⟩ := Prod.mk.injEq .. ▸ hf
        exact Or.inr ⟨rfl, newc, grown, (some.inj eq).symm⟩

theorem shift_eq {j : Nat} (fits : place.offset + 32 * j < g.bytesPerSector) :
    place.shift g j = ⟨place.lba, place.offset + 32 * j⟩ := by
  unfold Address.shift
  dsimp only
  rw [Nat.div_eq_of_lt fits, Nat.mod_eq_of_lt fits, Nat.add_zero]

theorem writeSlots_frame {new : List Slot} {j : Nat} : (volume.writeSlots g place j new).fat = volume.fat ∧
    (volume.writeSlots g place j new).nextFreeClusterHint = volume.nextFreeClusterHint := by
  induction new generalizing volume j with
  | nil => exact ⟨rfl, rfl⟩
  | cons slot rest ih => exact ih

section

variable {new : List Slot} {j : Nat} (fits : place.offset + 32 * (j + new.length) ≤ g.bytesPerSector)
include fits

theorem slot_writeSlots_of_ne (hal : 32 ∣ place.offset) (first : 32 ∣ address.offset)
    (ne : ∀ i < new.length, address ≠ ⟨place.lba, place.offset + 32 * (j + i)⟩) :
    (volume.writeSlots g place j new).slot address = volume.slot address := by
  induction new generalizing volume j with
  | nil => rfl
  | cons slot rest ih =>
    rw [length_cons] at fits
    rw [writeSlots, ih (by omega), shift_eq (by omega)]
    · apply slot_writeSlot_of_ne (ne 0 (Nat.succ_pos _)) first
      exact Nat.dvd_add hal (Nat.dvd_mul_right ..)
    · intro i lt
      have := ne (i + 1) (by rw [length_cons]; omega)
      rwa [Nat.add_assoc j, Nat.add_comm 1]

end

theorem slot_writeSlots {new : List Slot} {j i : Nat} (fits : place.offset + 32 * (j + new.length) ≤ g.bytesPerSector)
    (hal : 32 ∣ place.offset) (hin : i < new.length) :
    (volume.writeSlots g place j new).slot ⟨place.lba, place.offset + 32 * (j + i)⟩ = new[i] := by
  induction new generalizing volume j i with
  | nil => exact absurd hin (Nat.not_lt_zero _)
  | cons slot rest ih =>
    rw [length_cons] at fits hin
    rw [writeSlots]
    cases i with
    | zero =>
      rw [slot_writeSlots_of_ne (by omega) hal (Nat.dvd_add hal (Nat.dvd_mul_right ..)), shift_eq (by omega)]
      · exact slot_writeSlot
      · intro i _ eq
        have := congrArg Address.offset eq
        dsimp only at this
        omega
    | succ i =>
      have moved : ((volume.writeSlot (place.shift g j) slot).writeSlots g place (j + 1) rest).slot
          ⟨place.lba, place.offset + 32 * (j + 1 + i)⟩ = rest[i] := ih (by omega) (by omega)
      rw [show j + (i + 1) = j + 1 + i by omega]
      exact moved

theorem slots_writeSlots {new : List Slot} {pre behind : List Address}
    (fits : place.offset + 32 * new.length ≤ g.bytesPerSector) (hal : 32 ∣ place.offset)
    (dist : (pre ++ runAddresses place new.length ++ behind).Nodup)
    (offsets : ∀ address ∈ pre ++ runAddresses place new.length ++ behind, 32 ∣ address.offset) :
    (volume.writeSlots g place 0 new).slots (pre ++ runAddresses place new.length ++ behind) =
      volume.slots pre ++ (runAddresses place new.length).zip new ++ volume.slots behind := by
  have out : ∀ address ∈ pre ++ runAddresses place new.length ++ behind, address ∉ runAddresses place new.length →
      (volume.writeSlots g place 0 new).slot address = volume.slot address := by
    intro address mem ne
    refine slot_writeSlots_of_ne (by omega) hal (offsets address mem) fun i lt eq => ne ?_
    rw [Nat.zero_add] at eq
    exact mem_map.mpr ⟨i, mem_range.mpr lt, eq.symm⟩
  rw [nodup_append, nodup_append] at dist
  unfold slots
  rw [map_append, map_append]
  congr 1
  · congr 1
    · apply map_congr_left
      intro address mem
      rw [out address (by simp [mem]) fun inRun => dist.1.2.2 address mem address inRun rfl]
    · unfold runAddresses
      apply ext_getElem
      · simp
      · intro i low high
        have lt : i < new.length := by simpa using low
        have written := @slot_writeSlots g volume place new 0 i (by omega) hal lt
        simp only [getElem_map, getElem_range, getElem_zip]
        rw [Nat.zero_add] at written
        rw [written]
  · apply map_congr_left
    intro address mem
    rw [out address (by simp [mem]) fun inRun =>
      dist.2.2 address (mem_append_right _ inRun) address mem rfl]

end Volume

end RosKernel.Fat32
