import RosKernel.Library.Digits
import RosKernel.Fat32.Chains
import RosKernel.Fat32.Directory

/-! A directory as one list of slots in the order of its chain.

The reader works cluster by cluster and the search for room sector by sector; both come down to
the same list, in which a free run of one sector is a segment.
-/

set_option autoImplicit false

namespace RosKernel.Fat32

open Library List

variable {g : Geometry} {volume other : Volume} {address place : Address} {slot : Slot} {name : LongName}
  {cluster start : Nat} {clusters extra : List Nat}

namespace Slot

/-- A slot with the mark of a deleted one. -/
def marked (slot : Slot) : Slot := Function.update slot 0 0xE5

theorem marked_deleted (slot : Slot) : slot.marked.deleted = true := by
  unfold deleted marked
  rw [Function.update_self]
  rfl

theorem marked_isFree (slot : Slot) : slot.marked.isFree = true := by
  unfold isFree
  rw [marked_deleted, Bool.or_true]

theorem marked_neverUsed (slot : Slot) : slot.marked.neverUsed = false := by
  unfold neverUsed marked
  rw [Function.update_self]
  rfl

theorem marked_isLong (slot : Slot) : slot.marked.isLong = slot.isLong := by
  unfold isLong marked
  rw [Function.update_of_ne (by decide)]

end Slot

def sectorAddresses (g : Geometry) (lba : Nat) : List Address :=
  (range (g.bytesPerSector / 32)).map fun i => ⟨lba, 32 * i⟩

def clusterAddresses (g : Geometry) (cluster : Nat) : List Address :=
  (range g.sectorsPerCluster).flatMap fun s => sectorAddresses g (g.clusterToLBA cluster + s)

def directoryAddresses (g : Geometry) (clusters : List Nat) : List Address := clusters.flatMap (clusterAddresses g)

namespace Volume

def slots (volume : Volume) (addresses : List Address) : List (Address × Slot) :=
  addresses.map fun address => (address, volume.slot address)

def directorySlots (g : Geometry) (volume : Volume) (clusters : List Nat) : List (Address × Slot) :=
  volume.slots (directoryAddresses g clusters)

end Volume

theorem bytesPerSector_eq (g : Geometry) : g.bytesPerSector = g.bytesPerSector / 32 * 32 :=
  (Nat.div_mul_cancel g.slotted).symm

theorem mem_sectorAddresses {lba : Nat} :
    address ∈ sectorAddresses g lba ↔ ∃ i < g.bytesPerSector / 32, address = ⟨lba, 32 * i⟩ := by
  simp only [sectorAddresses, mem_map, mem_range]
  exact ⟨fun ⟨i, bound, eq⟩ => ⟨i, bound, eq.symm⟩, fun ⟨i, bound, eq⟩ => ⟨i, bound, eq.symm⟩⟩

theorem mem_clusterAddresses : address ∈ clusterAddresses g cluster ↔
    ∃ s < g.sectorsPerCluster, ∃ i < g.bytesPerSector / 32, address = ⟨g.clusterToLBA cluster + s, 32 * i⟩ := by
  simp only [clusterAddresses, mem_flatMap, mem_range, mem_sectorAddresses]

theorem nodup_sectorAddresses (lba : Nat) : (sectorAddresses g lba).Nodup := by
  refine List.Nodup.map ?_ nodup_range
  intro i j eq
  have := congrArg Address.offset eq
  dsimp only at this
  omega

theorem nodup_clusterAddresses (cluster : Nat) : (clusterAddresses g cluster).Nodup := by
  refine nodup_flatMap.mpr ⟨fun s _ => nodup_sectorAddresses _, ?_⟩
  refine List.Nodup.pairwise_of_forall_ne nodup_range fun s _ t _ ne address first snd => ?_
  obtain ⟨_, _, rfl⟩ := mem_sectorAddresses.mp first
  obtain ⟨_, _, eq⟩ := mem_sectorAddresses.mp snd
  have := congrArg Address.lba eq
  dsimp only at this
  omega

theorem clusterAddresses_apart {last : Nat} (ne : cluster ≠ last) (first : 2 ≤ cluster) (snd : 2 ≤ last)
    (mem : address ∈ clusterAddresses g cluster) : address ∉ clusterAddresses g last := by
  intro again
  obtain ⟨s, low, i, _, rfl⟩ := mem_clusterAddresses.mp mem
  obtain ⟨t, high, j, _, eq⟩ := mem_clusterAddresses.mp again
  exact Volume.lba_apart ne first snd low high (congrArg Address.lba eq)

theorem nodup_directoryAddresses (dist : clusters.Nodup) (inRange : ∀ cluster ∈ clusters, 2 ≤ cluster) :
    (directoryAddresses g clusters).Nodup := by
  refine nodup_flatMap.mpr ⟨fun cluster _ => nodup_clusterAddresses cluster, ?_⟩
  refine List.Nodup.pairwise_of_forall_ne dist fun cluster mem last isLast ne address first snd => ?_
  exact clusterAddresses_apart ne (inRange _ mem) (inRange _ isLast) first snd

theorem aligned (mem : address ∈ directoryAddresses g clusters) : 32 ∣ address.offset := by
  obtain ⟨cluster, _, hin⟩ := mem_flatMap.mp mem
  obtain ⟨s, _, i, _, rfl⟩ := mem_clusterAddresses.mp hin
  exact Nat.dvd_mul_right 32 i

namespace Volume

theorem slot_writeSlot : (volume.writeSlot address slot).slot address = slot := by
  funext i
  have hin : address.offset ≤ address.offset + i ∧ address.offset + i < address.offset + 32 := by omega
  have index : Fin.ofNat 32 (address.offset + i - address.offset) = i := by
    apply Fin.ext
    simp
  unfold Volume.slot slotAt writeSlot
  dsimp only
  rw [Function.update_self, if_pos hin, index]

theorem slot_writeSlot_of_ne (ne : place ≠ address) (first : 32 ∣ place.offset) (snd : 32 ∣ address.offset) :
    (volume.writeSlot address slot).slot place = volume.slot place := by
  funext i
  unfold Volume.slot slotAt writeSlot
  dsimp only
  by_cases eq : place.lba = address.lba
  · rw [eq, Function.update_self]
    apply if_neg
    have different : place.offset ≠ address.offset := by
      intro off
      exact ne (by cases place; cases address; simp_all)
    omega
  · rw [Function.update_of_ne eq]

theorem clusterSlots_eq : volume.clusterSlots g cluster = volume.slots (clusterAddresses g cluster) := by
  have size := bytesPerSector_eq g
  have pos := g.sector_pos
  have count : g.clusterBytes / 32 = g.sectorsPerCluster * (g.bytesPerSector / 32) := by
    unfold Geometry.clusterBytes
    rw [size, Nat.mul_comm _ g.sectorsPerCluster, ← Nat.mul_assoc, Nat.mul_div_cancel _ (by decide), ← size]
  unfold clusterSlots slots clusterAddresses sectorAddresses
  rw [count, range_mul_map, map_flatMap]
  apply flatMap_congr
  intro s _
  rw [map_map]
  apply map_congr_left
  intro i hin
  have bound := mem_range.mp hin
  have start : 32 * (s * (g.bytesPerSector / 32) + i) = s * g.bytesPerSector + 32 * i := by
    rw [Nat.mul_add, Nat.mul_left_comm, ← Nat.mul_comm (g.bytesPerSector / 32), ← size]
  have reduced : ∀ k < 32, (s * g.bytesPerSector + 32 * i + k) / g.bytesPerSector = s ∧
      (s * g.bytesPerSector + 32 * i + k) % g.bytesPerSector = 32 * i + k := by
    intro k lt
    have low : 32 * i + k < g.bytesPerSector := by omega
    rw [Nat.add_assoc, Nat.mul_comm s]
    exact ⟨by rw [Nat.mul_add_div pos, Nat.div_eq_of_lt low, Nat.add_zero],
      by rw [Nat.mul_add_mod, Nat.mod_eq_of_lt low]⟩
  have h := reduced 0 (by decide)
  rw [Nat.add_zero, Nat.add_zero] at h
  simp only [start, h, Function.comp]
  refine Prod.ext rfl ?_
  funext k
  have there := reduced k k.isLt
  simp only [slotAt, Volume.slot, readCluster, there]

end Volume

/-- Reading on behind the slots that were read. -/
def readOn (listed : List Listed × Option LongName) (more : List (Address × Slot)) : List Listed × Option LongName :=
  match listed.2 with
  | none => listed
  | some behind => (listed.1 ++ (readSlots behind more).1, (readSlots behind more).2)

theorem readSlots_append (name : LongName) (first snd : List (Address × Slot)) :
    readSlots name (first ++ snd) = readOn (readSlots name first) snd := by
  induction first generalizing name with
  | nil => rfl
  | cons head rest ih =>
    obtain ⟨address, slot⟩ := head
    simp only [cons_append, readSlots]
    split
    · rfl
    · split
      · exact ih _
      · split
        · exact ih _
        · rw [ih]
          obtain ⟨listed, behind⟩ := readSlots name.reset rest
          cases behind <;> rfl

namespace Volume

theorem clusterToLBA_pos (first : 2 ≤ cluster) : g.clusterToLBA cluster ≠ 0 := by
  have := g.data_pos
  unfold Geometry.clusterToLBA
  rw [if_neg (by omega)]
  omega

theorem next_cases (volume : Volume) (cluster : Nat) :
    volume.getNextCluster cluster < endOfChain ∧ volume.next cluster = some (volume.getNextCluster cluster) ∨
      endOfChain ≤ volume.getNextCluster cluster ∧ volume.next cluster = none := by
  unfold next
  split
  · exact .inl ⟨‹_›, rfl⟩
  · exact .inr ⟨by omega, rfl⟩

/-- A loop with a round for each cluster runs through the whole chain. -/
theorem follow {motive : Nat → Nat → List Nat → Prop} (holds : volume.Holds g start clusters) (nz : start ≠ 0)
    (ended : ∀ guard cur, endOfChain ≤ cur → motive guard cur [])
    (link : ∀ guard cluster rest, g.InRange cluster → motive guard (volume.getNextCluster cluster) rest →
      motive (guard + 1) cluster (cluster :: rest))
    {guard : Nat} (enough : g.totalClusters ≤ guard) : motive guard start clusters := by
  have walk : ∀ {clusters head cur guard}, Chain volume.next head clusters → (∀ cluster ∈ clusters, g.InRange cluster) →
      (head = some cur ∨ endOfChain ≤ cur ∧ head = none) → clusters.length ≤ guard → motive guard cur clusters := by
    intro clusters head cur guard chain inRange at_head enough
    induction clusters generalizing head cur guard with
    | nil =>
      obtain rfl : head = none := chain
      exact ended guard cur (by simpa using at_head)
    | cons cluster rest ih =>
      obtain ⟨rfl, behind⟩ := chain
      obtain rfl : cluster = cur := by simpa using at_head
      cases guard with
      | zero => exact absurd enough (Nat.not_succ_le_zero _)
      | succ guard =>
        exact link guard cluster rest (inRange cluster (.head _)) (ih behind (fun node mem => inRange node (.tail _ mem))
          ((volume.next_cases cluster).imp And.right id) (Nat.le_of_succ_le_succ enough))
  have chain := holds.chain
  rw [if_neg nz] at chain
  exact walk chain holds.inRange (.inl rfl) (Nat.le_trans holds.length_le enough)

theorem readDirectory_eq (holds : volume.Holds g start clusters) (nz : start ≠ 0) :
    volume.readDirectory g start = ((readSlots LongName.empty (volume.directorySlots g clusters)).1, true) := by
  apply follow (motive := fun guard cur clusters => ∀ name, volume.readClusters g (guard + 1) cur name =
    ((readSlots name (volume.directorySlots g clusters)).1, true)) holds nz _ _ (Nat.le_refl _)
  · intro guard cur ended name
    rw [readClusters, if_pos ended]
    rfl
  · intro guard cluster rest hin onward name
    have bound := hin.lt_endOfChain
    have split : volume.directorySlots g (cluster :: rest) =
        volume.slots (clusterAddresses g cluster) ++ volume.directorySlots g rest := by
      simp [directorySlots, slots, directoryAddresses]
    rw [readClusters, if_neg (by omega), if_neg (clusterToLBA_pos hin.1), split, readSlots_append, clusterSlots_eq]
    unfold readOn
    dsimp only
    cases goesOn : (readSlots name (volume.slots (clusterAddresses g cluster))).2 with
    | none => rfl
    | some behind => simp only [onward behind]

def runAddresses (found : Address) (needed : Nat) : List Address :=
  (range needed).map fun j => ⟨found.lba, found.offset + 32 * j⟩

theorem freeRun_some {needed : Nat} {data : Bytes} {i count consec startOff hf : Nat}
    (run : consec = 0 ∨ ∃ k, startOff = 32 * k ∧ k + consec = i ∧ ∀ j < consec, (slotAt data (32 * (k + j))).isFree)
    (picked : freeRun needed data (range' i count) consec startOff = some hf) :
    ∃ k, hf = 32 * k ∧ k + needed ≤ i + count ∧ ∀ j < needed, (slotAt data (32 * (k + j))).isFree := by
  induction count generalizing i consec startOff with
  | zero => exact nomatch picked
  | succ count ih =>
    rw [List.range'_succ, freeRun] at picked
    split at picked
    · rename_i free
      obtain ⟨k, starts, place, all⟩ : ∃ k, (if consec = 0 then 32 * i else startOff) = 32 * k ∧ k + consec = i ∧
          ∀ j < consec + 1, (slotAt data (32 * (k + j))).isFree := by
        rcases run with rfl | ⟨k, rfl, place, all⟩
        · grind
        · refine ⟨k, ?_, place, fun j lt => ?_⟩
          · split
            · rw [← place, ‹consec = 0›, Nat.add_zero]
            · rfl
          · rcases Nat.lt_or_ge j consec with pre | last
            · exact all j pre
            · grind
      rw [starts] at picked
      split at picked
      · exact ⟨k, (Option.some.inj picked).symm, by omega, fun j lt => all j (by omega)⟩
      · obtain ⟨hf, eq, fits, free⟩ := ih (.inr ⟨k, rfl, by omega, all⟩) picked
        exact ⟨hf, eq, by omega, free⟩
    · obtain ⟨hf, eq, fits, free⟩ := ih (.inl rfl) picked
      exact ⟨hf, eq, by omega, free⟩

theorem freeRun_zero {needed i count consec startOff : Nat} {data : Bytes} (zero : ∀ pos, data pos = 0)
    (short : consec < needed) (fits : needed ≤ consec + count) :
    freeRun needed data (range' i count) consec startOff = some (if consec = 0 then 32 * i else startOff) := by
  induction count generalizing i consec startOff with
  | zero => omega
  | succ count ih =>
    have free : (slotAt data (32 * i)).isFree := by simp [Slot.isFree, Slot.neverUsed, slotAt, zero]
    rw [List.range'_succ, freeRun, if_pos free]
    dsimp only
    split
    · rfl
    · rw [ih (by omega) (by omega), if_neg (by omega)]

theorem findFreeDirSlots_eq {needed : Nat} (holds : volume.Holds g start clusters) (nz : start ≠ 0) (pos : 0 < needed) :
    volume.findFreeDirSlots g start needed = clusters.findSome? (volume.freeInCluster g needed) := by
  rw [findFreeDirSlots, if_neg (by omega)]
  apply follow (motive := fun guard cur clusters => volume.findFreeFrom g needed guard cur =
    clusters.findSome? (volume.freeInCluster g needed)) holds nz _ _ (Nat.le_add_right ..)
  · intro guard cur ended
    cases guard with
    | zero => rfl
    | succ guard => rw [findFreeFrom, if_pos (.inl ended)]; rfl
  · intro guard cluster rest hin onward
    have bound := hin.lt_endOfChain
    have low := hin.1
    rw [findFreeFrom, if_neg (by omega), onward, findSome?_cons]
    cases volume.freeInCluster g needed cluster <;> rfl

theorem freeInCluster_some {needed : Nat} (hf : volume.freeInCluster g needed cluster = some place) :
    (∃ pre after, clusterAddresses g cluster = pre ++ runAddresses place needed ++ after) ∧
      place.offset + 32 * needed ≤ g.bytesPerSector ∧ 32 ∣ place.offset ∧
      ∀ address ∈ runAddresses place needed, (volume.slot address).isFree := by
  obtain ⟨s, hin, picked⟩ := exists_of_findSome?_eq_some hf
  obtain ⟨off, run, rfl⟩ := Option.map_eq_some_iff.mp picked
  rw [range_eq_range'] at run
  obtain ⟨k, rfl, fits, free⟩ := freeRun_some (.inl rfl) run
  have size := bytesPerSector_eq g
  refine ⟨?_, by dsimp only; omega, Nat.dvd_mul_right 32 k, ?_⟩
  · obtain ⟨front, back, split⟩ := append_of_mem hin
    have count : g.bytesPerSector / 32 = k + (needed + (g.bytesPerSector / 32 - k - needed)) := by omega
    have sector : ∃ pre after, sectorAddresses g (g.clusterToLBA cluster + s) =
        pre ++ runAddresses ⟨g.clusterToLBA cluster + s, 32 * k⟩ needed ++ after := by
      unfold sectorAddresses
      rw [count, range_add, range_add, map_append, map_append, map_append, ← append_assoc]
      refine ⟨_, _, congrArg (· ++ _) (congrArg (_ ++ ·) ?_)⟩
      rw [map_map]
      apply map_congr_left
      intro j _
      simp [Nat.mul_add]
    obtain ⟨pre, after, sector⟩ := sector
    unfold clusterAddresses
    rw [split, flatMap_append, flatMap_cons, sector]
    refine ⟨front.flatMap (fun s => sectorAddresses g (g.clusterToLBA cluster + s)) ++ pre,
      after ++ back.flatMap fun s => sectorAddresses g (g.clusterToLBA cluster + s), ?_⟩
    simp only [append_assoc]
  · intro address mem
    obtain ⟨j, lt, rfl⟩ := mem_map.mp mem
    have := free j (mem_range.mp lt)
    rwa [Nat.mul_add] at this

theorem findFreeDirSlots_some {needed : Nat} (holds : volume.Holds g start clusters) (nz : start ≠ 0) (pos : 0 < needed)
    (hf : volume.findFreeDirSlots g start needed = some place) :
    (∃ pre after, directoryAddresses g clusters = pre ++ runAddresses place needed ++ after) ∧
      place.offset + 32 * needed ≤ g.bytesPerSector ∧ 32 ∣ place.offset ∧
      ∀ address ∈ runAddresses place needed, (volume.slot address).isFree := by
  rw [findFreeDirSlots_eq holds nz pos] at hf
  obtain ⟨cluster, mem, picked⟩ := exists_of_findSome?_eq_some hf
  obtain ⟨⟨pre, after, split⟩, rest⟩ := freeInCluster_some picked
  obtain ⟨front, back, rfl⟩ := append_of_mem mem
  refine ⟨⟨directoryAddresses g front ++ pre, after ++ directoryAddresses g back, ?_⟩, rest⟩
  unfold directoryAddresses
  rw [flatMap_append, flatMap_cons, split]
  simp only [append_assoc]

end Volume

end RosKernel.Fat32
