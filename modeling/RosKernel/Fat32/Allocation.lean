import RosKernel.Fat32.Insertion

/-! Whether `FindFreeCluster` reaches every data cluster, and which names `CreateDirectoryEntry` can give an entry.

The data clusters are numbered from two on, so there are two past the number that ends the search; a cluster that is free
there is never handed out. A name of 255 characters is let through, but its slots have to stand in one sector, and a sector of
512 bytes has sixteen. An attempt that finds no room has lengthened the directory before.
-/

set_option autoImplicit false

namespace RosKernel.Fat32

open Library List Option

section

variable {g : Geometry} {volume middle after : Volume} {cluster last : Nat} {given : List Nat}

namespace Volume

def FreeCluster (g : Geometry) (volume : Volume) (cluster : Nat) : Prop :=
  g.InRange cluster ∧ volume.getNextCluster cluster = 0

/-- Calls of `AllocateCluster` one after another, each behind no cluster or behind one in use. -/
inductive Allocations (g : Geometry) : Volume → List Nat → Volume → Prop
  | nil {volume : Volume} : Allocations g volume [] volume
  | cons {volume middle after : Volume} {last cluster : Nat} {given : List Nat} :
      last = 0 ∨ volume.getNextCluster last ≠ 0 → volume.allocateCluster g last = some (cluster, middle) →
      Allocations g middle given after → Allocations g volume (cluster :: given) after

theorem searchStart_bounds (g : Geometry) (volume : Volume) :
    2 ≤ volume.searchStart g ∧ (2 < volume.searchStart g → volume.searchStart g < g.totalClusters) := by
  unfold searchStart
  split <;> omega

theorem findFreeCluster_none_iff : volume.findFreeCluster g = none ↔
    ∀ cluster, 2 ≤ cluster → cluster < g.totalClusters → volume.getNextCluster cluster ≠ 0 := by
  obtain ⟨low, high⟩ := searchStart_bounds g volume
  have scanned : ∀ first count, (range' first count).find? volume.isFree = none ↔
      ∀ cluster, first ≤ cluster → cluster < first + count → volume.getNextCluster cluster ≠ 0 := by
    intro first count
    simp only [find?_eq_none, mem_range'_1, isFree, beq_iff_eq, and_imp, ne_eq]
  simp only [findFreeCluster, map_eq_none_iff, or_eq_none_iff, scanned]
  constructor
  · rintro ⟨upper, lower⟩ cluster first hin
    rcases Nat.lt_or_ge cluster (volume.searchStart g) with below | above
    · exact lower cluster first (by omega)
    · exact upper cluster above (by omega)
  · grind

theorem findFreeCluster_lt (hf : volume.findFreeCluster g = some (cluster, after)) : cluster < g.totalClusters := by
  obtain ⟨low, high⟩ := searchStart_bounds g volume
  simp only [findFreeCluster, map_eq_some_iff, or_eq_some_iff, Prod.mk.injEq] at hf
  obtain ⟨picked, place, rfl, rfl⟩ := hf
  rcases place with first | ⟨-, snd⟩
  · have := mem_range'_1.mp (mem_of_find?_eq_some first)
    omega
  · have := mem_range'_1.mp (mem_of_find?_eq_some snd)
    omega

theorem allocateCluster_none_iff : volume.allocateCluster g last = none ↔ volume.findFreeCluster g = none :=
  map_eq_none_iff

theorem allocateCluster_lt (alloc : volume.allocateCluster g last = some (cluster, after)) :
    cluster < g.totalClusters := by
  obtain ⟨⟨picked, ht⟩, hf, eq⟩ := map_eq_some_iff.mp alloc
  obtain ⟨rfl, -⟩ := Prod.mk.inj eq
  exact findFreeCluster_lt hf

theorem getNextCluster_ne_zero_of_end (ends : volume.next cluster = none) : volume.getNextCluster cluster ≠ 0 := by
  intro free
  rw [next_free free] at ends
  exact nomatch ends

theorem Allocated.free_iff (alloc : Allocated g volume last cluster after)
    (linkable : last = 0 ∨ volume.getNextCluster last ≠ 0) (other : Nat) :
    after.getNextCluster other = 0 ↔ volume.getNextCluster other = 0 ∧ other ≠ cluster := by
  have ne : last ≠ cluster := by
    rintro rfl
    have := alloc.inRange.1
    exact linkable.elim (fun none => by omega) fun used => used alloc.free
  by_cases ht : other = cluster
  · subst ht
    exact iff_of_false (getNextCluster_ne_zero_of_end (alloc.ends ne)) fun both => both.2 rfl
  by_cases behind : last = 0 ∨ other ≠ last
  · rw [getNextCluster_congr (alloc.frame other ht behind)]
    exact ⟨fun free => ⟨free, ht⟩, And.left⟩
  · obtain ⟨linked, rfl⟩ : last ≠ 0 ∧ other = last := by simpa using behind
    refine iff_of_false (fun free => ?_) fun both => linkable.resolve_left linked both.1
    have goesOn := alloc.linked linked
    rw [next_free free] at goesOn
    have low := alloc.inRange.1
    rw [← Option.some.inj goesOn] at low
    exact absurd low (by decide)

namespace Allocations

theorem spec (run : Allocations g volume given after) : given.Nodup ∧
    (∀ cluster ∈ given, FreeCluster g volume cluster ∧ cluster < g.totalClusters) ∧
    ∀ cluster, after.getNextCluster cluster = 0 ↔ volume.getNextCluster cluster = 0 ∧ cluster ∉ given := by
  induction run with
  | nil => simp
  | @cons volume middle after last cluster given linkable alloc run ih =>
    have ht := allocateCluster_spec alloc
    have free := ht.free_iff linkable
    obtain ⟨dist, wasFree, left⟩ := ih
    refine ⟨nodup_cons.mpr ⟨fun again => ?_, dist⟩, forall_mem_cons.mpr ⟨?_, fun other mem => ?_⟩,
      fun other => ?_⟩
    · exact ((free cluster).mp (wasFree cluster again).1.2).2 rfl
    · exact ⟨⟨ht.inRange, ht.free⟩, allocateCluster_lt alloc⟩
    · obtain ⟨⟨inRange, isFree⟩, below⟩ := wasFree other mem
      exact ⟨⟨inRange, ((free other).mp isFree).1⟩, below⟩
    · rw [left, free, mem_cons, not_or, and_assoc]

theorem exhausted (g : Geometry) (volume : Volume) :
    ∃ given after, Allocations g volume given after ∧ after.findFreeCluster g = none := by
  generalize count : ((Finset.Ico 2 g.totalClusters).filter fun cluster => volume.getNextCluster cluster = 0).card = left
  induction left using Nat.strong_induction_on generalizing volume with
  | h left ih =>
    cases call : volume.allocateCluster g 0 with
    | none => exact ⟨[], volume, .nil, allocateCluster_none_iff.mp call⟩
    | some pair =>
      obtain ⟨cluster, middle⟩ := pair
      have ht := allocateCluster_spec call
      have free := ht.free_iff (.inl rfl)
      have fewer : ((Finset.Ico 2 g.totalClusters).filter fun cluster => middle.getNextCluster cluster = 0).card < left := by
        rw [← count]
        apply Finset.card_lt_card
        refine Finset.ssubset_iff_of_subset (fun other mem => ?_) |>.mpr ⟨cluster, ?_, ?_⟩
        · grind
        · rw [Finset.mem_filter, Finset.mem_Ico]
          exact ⟨⟨ht.inRange.1, allocateCluster_lt call⟩, ht.free⟩
        · grind
      obtain ⟨given, after, run, ended⟩ := ih _ fewer middle rfl
      exact ⟨cluster :: given, after, .cons (.inl rfl) call run, ended⟩

end Allocations

end Volume

end

variable {g : Geometry} {volume after : Volume} {name : Name} {start startCluster fileSize needed cluster : Nat}
  {clusters : List Nat}

namespace Volume

/-- A sector of the directory has so many free slots in a row. -/
def HasRoom (g : Geometry) (volume : Volume) (clusters : List Nat) (needed : Nat) : Prop :=
  ∃ cluster ∈ clusters, ∃ s < g.sectorsPerCluster, ∃ k, k + needed ≤ g.bytesPerSector / 32 ∧
    ∀ j < needed, (volume.slot ⟨g.clusterToLBA cluster + s, 32 * (k + j)⟩).isFree = true

/-- The entry is created; a failure would leave the directory its clusters. -/
structure Creates (g : Geometry) (volume : Volume) (start : Nat) (clusters : List Nat) (name : Name)
    (startCluster fileSize : Nat) : Prop where
  succeeds : (volume.createDirectoryEntry g start name startCluster fileSize).2.isSome = true
  kept : (volume.createDirectoryEntry g start name startCluster fileSize).2 = none →
    (volume.createDirectoryEntry g start name startCluster fileSize).1.Holds g start clusters

theorem freeRun_complete {data : Bytes} {i count consec startOff k : Nat} (short : consec < needed) (late : i ≤ k + consec)
    (fits : k + needed ≤ i + count) (free : ∀ j < needed, (slotAt data (32 * (k + j))).isFree = true) :
    (freeRun needed data (range' i count) consec startOff).isSome = true := by
  induction count generalizing i consec startOff with
  | zero => omega
  | succ count ih =>
    rw [List.range'_succ, freeRun]
    cases h : (slotAt data (32 * i)).isFree with
    | true =>
      rw [if_pos rfl]
      dsimp only
      split
      · rfl
      · exact ih (by omega) (by omega) (by omega)
    | false =>
      rw [if_neg Bool.false_ne_true]
      refine ih (by omega) ?_ (by omega)
      -- a slot that is ht is none of the run, so the run lies behind it
      by_contra early
      have inRun := free (i - k) (by omega)
      rw [show k + (i - k) = i by omega, h] at inRun
      cases inRun

theorem freeInCluster_isSome_iff (pos : 0 < needed) : (volume.freeInCluster g needed cluster).isSome = true ↔
    ∃ s < g.sectorsPerCluster, ∃ k, k + needed ≤ g.bytesPerSector / 32 ∧
      ∀ j < needed, (volume.slot ⟨g.clusterToLBA cluster + s, 32 * (k + j)⟩).isFree = true := by
  have sector : ∀ s, (freeRun needed (volume.sectors (g.clusterToLBA cluster + s)) (range (g.bytesPerSector / 32)) 0 0).isSome =
      true ↔ ∃ k, k + needed ≤ g.bytesPerSector / 32 ∧
        ∀ j < needed, (volume.slot ⟨g.clusterToLBA cluster + s, 32 * (k + j)⟩).isFree = true := by
    intro s
    rw [range_eq_range']
    constructor
    · intro hf
      obtain ⟨off, picked⟩ := isSome_iff_exists.mp hf
      obtain ⟨k, -, fits, free⟩ := freeRun_some (.inl rfl) picked
      exact ⟨k, by omega, free⟩
    · rintro ⟨k, fits, free⟩
      exact freeRun_complete pos (Nat.zero_le _) (by omega) free
  unfold freeInCluster
  simp only [findSome?_isSome_iff, mem_range, isSome_map, sector]

theorem findFreeDirSlots_isSome_iff (holds : volume.Holds g start clusters) (nz : start ≠ 0) (pos : 0 < needed) :
    (volume.findFreeDirSlots g start needed).isSome = true ↔ HasRoom g volume clusters needed := by
  rw [findFreeDirSlots_eq holds nz pos, findSome?_isSome_iff]
  simp only [freeInCluster_isSome_iff pos]
  rfl

theorem expandDirectory_none_iff : volume.expandDirectory g start = none ↔
    ∀ cluster, cluster < g.totalClusters → ¬ FreeCluster g volume cluster := by
  have search : volume.expandDirectory g start = none ↔ volume.findFreeCluster g = none :=
    map_eq_none_iff.trans allocateCluster_none_iff
  rw [search, findFreeCluster_none_iff]
  constructor
  · intro used cluster below free
    exact used cluster free.1.1 below free.2
  · intro noFree cluster low below free
    exact noFree cluster below ⟨⟨low, by omega⟩, free⟩

section

variable (holds : volume.Holds g start clusters) (nz : start ≠ 0) (pos : 0 < needed)
include holds nz pos

theorem makeRoom_isSome_iff {attempts : Nat} (fits : needed ≤ g.bytesPerSector / 32) :
    (volume.makeRoom g start needed (attempts + 1)).2.isSome = true ↔
      HasRoom g volume clusters needed ∨ ∃ cluster < g.totalClusters, FreeCluster g volume cluster := by
  rw [← findFreeDirSlots_isSome_iff holds nz pos]
  unfold makeRoom
  cases search : volume.findFreeDirSlots g start needed with
  | some hf => exact iff_of_true rfl (.inl rfl)
  | none =>
    cases attempt : volume.expandDirectory g start with
    | none =>
      refine iff_of_false Bool.false_ne_true ?_
      rintro (hf | ⟨cluster, below, free⟩)
      · cases hf
      · exact expandDirectory_none_iff.mp attempt cluster below free
    | some expanded =>
      obtain ⟨newc, grown⟩ := expandDirectory_spec holds nz attempt
      have again := grown.search_eq holds nz pos fits search
      have available : ∃ cluster < g.totalClusters, FreeCluster g volume cluster := by
        by_contra noFree
        have failed : volume.expandDirectory g start = none :=
          expandDirectory_none_iff.mpr fun cluster below free => noFree ⟨cluster, below, free⟩
        cases attempt.symm.trans failed
      refine iff_of_true ?_ (.inr available)
      dsimp only
      unfold makeRoom
      rw [again]
      rfl

theorem makeRoom_none {attempts : Nat} (large : g.bytesPerSector / 32 < needed) :
    (volume.makeRoom g start needed attempts).2 = none := by
  obtain ⟨extra, grown, hf⟩ := @makeRoom_grown g volume start needed clusters attempts holds nz
  cases answer : (volume.makeRoom g start needed attempts).2 with
  | none => rfl
  | some place =>
    obtain ⟨-, fits, -⟩ := findFreeDirSlots_some grown.holds nz pos (hf place answer)
    omega

end

theorem createDirectoryEntry_isSome (short : (toUtf16 name).length ≤ 255) :
    (volume.createDirectoryEntry g start name startCluster fileSize).2.isSome =
      (volume.makeRoom g start (slotsNeeded name) maxExpandAttempts).2.isSome := by
  unfold createDirectoryEntry slotsNeeded
  dsimp only
  rw [if_neg (by omega)]
  generalize volume.makeRoom g start (((toUtf16 name).length + 12) / 13 + 1) maxExpandAttempts = made
  obtain ⟨expanded, answer⟩ := made
  cases answer <;> rfl

theorem creates_iff (sector : g.bytesPerSector = 512) (directory : Directory g volume start clusters) (ascii : Ascii name)
    (short : name.length ≤ 255) : Creates g volume start clusters name startCluster fileSize ↔
      name.length ≤ 195 ∧
        (HasRoom g volume clusters (slotsNeeded name) ∨ ∃ cluster < g.totalClusters, FreeCluster g volume cluster) := by
  have count := slotsNeeded_eq ascii short
  have chars : (toUtf16 name).length ≤ 255 := by rwa [toUtf16_ascii ascii short, length_map]
  have success : Creates g volume start clusters name startCluster fileSize ↔
      (volume.makeRoom g start (slotsNeeded name) maxExpandAttempts).2.isSome = true := by
    rw [← createDirectoryEntry_isSome chars]
    refine ⟨Creates.succeeds, fun succeeds => ⟨succeeds, fun failed => ?_⟩⟩
    rw [failed] at succeeds
    exact nomatch succeeds
  rw [success]
  by_cases lt : name.length ≤ 195
  · rw [and_iff_right lt]
    exact makeRoom_isSome_iff directory.holds directory.nonzero (slotsNeeded_pos name) (by omega)
  · rw [makeRoom_none directory.holds directory.nonzero (slotsNeeded_pos name) (by omega)]
    exact iff_of_false Bool.false_ne_true fun both => lt both.1

theorem creates_iff_lettered : Creates smallGeometry (lettered 3) 2 [2] [0x7A] 9 5 ↔
    [(0x7A : UInt8)].length ≤ 195 ∧ (HasRoom smallGeometry (lettered 3) [2] (slotsNeeded [0x7A]) ∨
      ∃ cluster < smallGeometry.totalClusters, FreeCluster smallGeometry (lettered 3) cluster) :=
  creates_iff rfl (lettered_directory (by decide +kernel)) (by decide) (by decide)

/-- A name of 196 characters fails, and leaves four clusters more in the directory. -/
theorem longer_name_not_created : (lettered 3).Directory smallGeometry 2 [2] ∧ FreeCluster smallGeometry (lettered 3) 3 ∧
    Ascii (replicate 196 0x7A) ∧
    ((lettered 3).createDirectoryEntry smallGeometry 2 (replicate 196 0x7A) 9 5).2 = none ∧
    ((lettered 3).createDirectoryEntry smallGeometry 2 (replicate 196 0x7A) 9 5).1.chainFrom 13 2 = [2, 3, 4, 5, 6] := by
  refine ⟨lettered_directory ?_, ⟨?_, ?_⟩, ?_, ?_, ?_⟩ <;> decide +kernel

end Volume

end RosKernel.Fat32
