import RosKernel.Fat32.Volume

/-! What the table operations do to the chains of a volume.

A chain keeps its clusters as long as no entry of its own is written: allocation writes a free
entry and the last entry of the chain it extends, and freeing writes the chain it frees.
-/

set_option autoImplicit false

namespace RosKernel.Fat32

open Library List

variable {g : Geometry} {volume other : Volume} {cluster last start value : Nat} {clusters : List Nat}

theorem Geometry.InRange.lt_endOfChain (inRange : g.InRange cluster) : cluster < endOfChain :=
  Nat.lt_of_lt_of_le inRange.2 g.addressable

namespace Volume

@[simp] theorem setNextCluster_sectors : (volume.setNextCluster cluster value).sectors = volume.sectors := rfl

@[simp] theorem writeCluster_fat {buffer : Bytes} : (volume.writeCluster g cluster buffer).fat = volume.fat := rfl

theorem setNextCluster_fat_of_ne (ne : last ≠ cluster) :
    (volume.setNextCluster cluster value).fat last = volume.fat last := Function.update_of_ne ne _ _

theorem getNextCluster_congr (eq : other.fat cluster = volume.fat cluster) :
    other.getNextCluster cluster = volume.getNextCluster cluster := by
  unfold getNextCluster
  rw [eq]

theorem next_congr (eq : other.fat cluster = volume.fat cluster) : other.next cluster = volume.next cluster := by
  unfold next
  rw [getNextCluster_congr eq]

theorem getNextCluster_setNextCluster (lt : value < 2 ^ 28) :
    (volume.setNextCluster cluster value).getNextCluster cluster = value := by
  have written : (volume.setNextCluster cluster value).fat cluster = value % 2 ^ 28 := Function.update_self ..
  unfold getNextCluster
  rw [written, Nat.mod_mod, Nat.mod_eq_of_lt lt]

theorem next_setNextCluster_end : (volume.setNextCluster cluster endOfChain).next cluster = none := by
  unfold next
  rw [getNextCluster_setNextCluster (by decide), if_neg (Nat.lt_irrefl _)]

theorem next_setNextCluster_link (inRange : g.InRange value) :
    (volume.setNextCluster cluster value).next cluster = some value := by
  have lt := inRange.lt_endOfChain
  unfold next
  rw [getNextCluster_setNextCluster (Nat.lt_trans lt (by decide)), if_pos lt]

theorem next_free (free : volume.getNextCluster cluster = 0) : volume.next cluster = some 0 := by
  unfold next
  rw [free, if_pos (by decide)]

namespace Holds

section

variable (holds : volume.Holds g start clusters)
include holds

theorem nodup : clusters.Nodup := holds.chain.nodup

theorem unique {others : List Nat} (snd : volume.Holds g start others) : clusters = others := holds.chain.unique snd.chain

theorem congr (eq : ∀ cluster ∈ clusters, other.fat cluster = volume.fat cluster) : other.Holds g start clusters :=
  ⟨holds.chain.congr fun cluster mem => next_congr (eq cluster mem), holds.inRange⟩

theorem length_le : clusters.length ≤ g.totalClusters := by
  have hin : clusters.toFinset ⊆ Finset.Ico 2 (g.totalClusters + 2) := by
    intro cluster mem
    exact Finset.mem_Ico.mpr (holds.inRange cluster (mem_toFinset.mp mem))
  have bound := Finset.card_le_card hin
  rw [toFinset_card_of_nodup holds.nodup, Nat.card_Ico] at bound
  omega

end

theorem start_eq (holds : volume.Holds g start (cluster :: clusters)) : start = cluster := by
  have head := holds.chain.1
  split at head
  · exact nomatch head
  · exact Option.some.inj head

theorem eq_nil (holds : volume.Holds g 0 clusters) : clusters = [] := by
  cases clusters with
  | nil => rfl
  | cons cluster rest => exact nomatch holds.chain.1

theorem start_eq_zero (holds : volume.Holds g start []) : start = 0 := by
  have head : (if start = 0 then none else some start) = none := holds.chain
  by_contra nz
  rw [if_neg nz] at head
  exact nomatch head

theorem start_inRange (holds : volume.Holds g start clusters) (nz : start ≠ 0) : g.InRange start := by
  cases clusters with
  | nil => exact absurd holds.start_eq_zero nz
  | cons cluster rest =>
    have first := holds.inRange cluster (.head _)
    rwa [← holds.start_eq] at first

theorem inUse (holds : volume.Holds g start clusters) (mem : cluster ∈ clusters) :
    volume.getNextCluster cluster ≠ 0 := by
  intro free
  obtain ⟨pre, after, split⟩ := append_of_mem mem
  have behind := Chain.next_eq (split ▸ holds.chain)
  rw [next_free free] at behind
  cases after with
  | nil => exact nomatch behind
  | cons snd rest =>
    have hin := holds.inRange snd (by rw [split]; simp)
    rw [← Option.some.inj behind] at hin
    exact absurd hin.1 (by decide)

end Holds

theorem Holds.none : volume.Holds g 0 [] := ⟨rfl, forall_mem_nil _⟩

theorem findFreeCluster_spec (hf : volume.findFreeCluster g = some (cluster, other)) :
    g.InRange cluster ∧ volume.getNextCluster cluster = 0 ∧
      other = (volume.setNextCluster cluster endOfChain).updateFSInfoHint (cluster + 1) := by
  simp only [findFreeCluster, Option.map_eq_some_iff, Option.or_eq_some_iff, Prod.mk.injEq] at hf
  obtain ⟨picked, place, rfl, rfl⟩ := hf
  have free : ∀ low count, (range' low count).find? volume.isFree = some picked →
      low ≤ picked ∧ picked < low + count ∧ volume.getNextCluster picked = 0 := by
    intro low count first
    have hin := mem_range'_1.mp (mem_of_find?_eq_some first)
    have isFree : volume.isFree picked = true := find?_some (p := volume.isFree) first
    exact ⟨hin.1, hin.2, eq_of_beq isFree⟩
  have begins : 2 ≤ volume.searchStart g ∧ (2 < volume.searchStart g → volume.searchStart g < g.totalClusters) := by
    unfold searchStart
    split <;> omega
  unfold Geometry.InRange
  rcases place with first | ⟨-, snd⟩
  · have := free _ _ first
    exact ⟨by omega, this.2.2, rfl⟩
  · have := free _ _ snd
    exact ⟨by omega, this.2.2, rfl⟩

/-- A new cluster was free, ends the chain it is put behind, and nothing else of the table changes. -/
structure Allocated (g : Geometry) (volume : Volume) (last cluster : Nat) (after : Volume) : Prop where
  inRange : g.InRange cluster
  free : volume.getNextCluster cluster = 0
  ends : last ≠ cluster → after.next cluster = none
  linked : last ≠ 0 → after.next last = some cluster
  frame : ∀ other, other ≠ cluster → (last = 0 ∨ other ≠ last) → after.fat other = volume.fat other
  sectors : after.sectors = volume.sectors

theorem allocateCluster_spec (alloc : volume.allocateCluster g last = some (cluster, other)) :
    Allocated g volume last cluster other := by
  simp only [allocateCluster, Option.map_eq_some_iff, Prod.mk.injEq] at alloc
  obtain ⟨⟨picked, ht⟩, hf, rfl, rfl⟩ := alloc
  obtain ⟨inRange, free, rfl⟩ := findFreeCluster_spec hf
  have ended : ((volume.setNextCluster picked endOfChain).updateFSInfoHint (picked + 1)).next picked = Option.none :=
    next_setNextCluster_end
  have frame : ∀ other, other ≠ picked →
      ((volume.setNextCluster picked endOfChain).updateFSInfoHint (picked + 1)).fat other = volume.fat other :=
    fun other ne => setNextCluster_fat_of_ne ne
  by_cases alone : last = 0
  · rw [if_pos alone]
    exact ⟨inRange, free, fun _ => ended, fun behind => absurd alone behind, fun other ne _ => frame other ne, rfl⟩
  · rw [if_neg alone]
    refine ⟨inRange, free, fun ne => ?_, fun _ => next_setNextCluster_link inRange, fun other ne behind => ?_, rfl⟩
    · rw [next_congr (setNextCluster_fat_of_ne ne.symm), ended]
    · rw [setNextCluster_fat_of_ne (behind.resolve_left alone), frame other ne]

namespace Allocated

variable {after : Volume}

section

variable (alloc : Allocated g volume last cluster after) (holds : volume.Holds g start clusters)
include alloc holds

theorem fresh : cluster ∉ clusters := fun mem => holds.inUse mem alloc.free

end

theorem lengthens (alloc : Allocated g volume last cluster after)
    (holds : volume.Holds g start (clusters ++ [last])) : after.Holds g start (clusters ++ [last, cluster]) := by
  have hin : g.InRange last := holds.inRange last (by simp)
  have pos : last ≠ 0 := by
    have := hin.1
    omega
  have fresh := alloc.fresh holds
  have dist := holds.nodup
  refine ⟨Chain.snoc holds.chain ?_ (alloc.linked pos) (alloc.ends ?_), ?_⟩
  · intro node mem
    apply next_congr
    apply alloc.frame node
    · rintro rfl
      exact fresh (mem_append_left _ mem)
    · grind
  · rintro rfl
    exact fresh (mem_append_right _ (.head _))
  · intro node mem
    simp only [mem_append, mem_cons, not_mem_nil, or_false] at mem
    rcases mem with old | rfl | rfl
    · exact holds.inRange node (mem_append_left _ old)
    · exact hin
    · exact alloc.inRange

end Allocated

theorem freeFrom_spec {guard minFreed : Nat} {head : Option Nat} {cur : Nat}
    (chain : Chain volume.next head clusters) (inRange : ∀ cluster ∈ clusters, g.InRange cluster)
    (at_head : head = some cur ∨ head = none ∧ endOfChain ≤ cur) (enough : clusters.length ≤ guard) :
    (freeFrom guard volume cur minFreed).1.sectors = volume.sectors ∧
      ∀ other, (freeFrom guard volume cur minFreed).1.fat other = if other ∈ clusters then 0 else volume.fat other := by
  induction clusters generalizing volume guard minFreed head cur with
  | nil =>
    obtain rfl : head = none := chain
    have ended : endOfChain ≤ cur := by simpa using at_head
    cases guard with
    | zero => simp [freeFrom]
    | succ guard => simp [freeFrom, Nat.not_lt.mpr ended]
  | cons cluster rest ih =>
    obtain ⟨rfl, behind⟩ := chain
    obtain rfl : cluster = cur := by simpa using at_head
    cases guard with
    | zero => exact absurd enough (Nat.not_succ_le_zero _)
    | succ guard =>
      have hin := inRange cluster (.head _)
      have dist : cluster ∉ rest := by
        have whole : Chain volume.next (some cluster) (cluster :: rest) := ⟨rfl, behind⟩
        exact (nodup_cons.mp whole.nodup).1
      rw [freeFrom, if_pos ⟨hin.1, hin.lt_endOfChain⟩]
      have kept : Chain (volume.setNextCluster cluster 0).next (volume.next cluster) rest :=
        behind.congr fun node mem => next_congr (setNextCluster_fat_of_ne fun eq => dist (eq ▸ mem))
      have goes_on : volume.next cluster = some (volume.getNextCluster cluster) ∨
          volume.next cluster = none ∧ endOfChain ≤ volume.getNextCluster cluster := by
        unfold next
        split
        · exact .inl rfl
        · exact .inr ⟨rfl, by omega⟩
      have hin := fun node mem => inRange node (mem_cons_of_mem cluster mem)
      have short := Nat.le_of_succ_le_succ enough
      refine ⟨(ih kept hin goes_on short).1, fun other => ?_⟩
      rw [(ih kept hin goes_on short).2 other]
      by_cases eq : other = cluster
      · subst eq
        rw [if_neg dist, if_pos (.head _)]
        exact Function.update_self ..
      · rw [setNextCluster_fat_of_ne eq]
        simp only [mem_cons, eq, false_or]

theorem freeClusterChain_spec (holds : volume.Holds g start clusters) :
    (volume.freeClusterChain g start).sectors = volume.sectors ∧
      ∀ other, (volume.freeClusterChain g start).fat other = if other ∈ clusters then 0 else volume.fat other := by
  unfold freeClusterChain
  by_cases none : start = 0
  · subst none
    rw [holds.eq_nil]
    simp
  · have hin := holds.start_inRange none
    have chain := holds.chain
    rw [if_neg none] at chain
    rw [if_neg (Nat.not_lt.mpr hin.1)]
    have enough : clusters.length ≤ g.totalClusters + 3 := Nat.le_add_right_of_le holds.length_le
    exact freeFrom_spec chain holds.inRange (.inl rfl) enough

theorem Holds.freed {others : List Nat} {first : Nat} (holds : volume.Holds g first others)
    (released : volume.Holds g start clusters) (ne : ∀ cluster ∈ others, cluster ∉ clusters) :
    (volume.freeClusterChain g start).Holds g first others :=
  holds.congr fun cluster mem => by
    rw [(freeClusterChain_spec released).2, if_neg (ne cluster mem)]

theorem lba_apart {s t : Nat} (ne : cluster ≠ last) (first : 2 ≤ cluster) (snd : 2 ≤ last)
    (low : s < g.sectorsPerCluster) (high : t < g.sectorsPerCluster) :
    g.clusterToLBA cluster + s ≠ g.clusterToLBA last + t := by
  unfold Geometry.clusterToLBA
  rw [if_neg (by omega), if_neg (by omega)]
  rcases Nat.lt_or_gt_of_ne ne with below | above
  · have := Nat.mul_le_mul_right g.sectorsPerCluster (show cluster - 2 + 1 ≤ last - 2 by omega)
    rw [Nat.succ_mul] at this
    omega
  · have := Nat.mul_le_mul_right g.sectorsPerCluster (show last - 2 + 1 ≤ cluster - 2 by omega)
    rw [Nat.succ_mul] at this
    omega

theorem writeCluster_sectors {buffer : Bytes} {s : Nat} (ne : last ≠ cluster) (first : 2 ≤ last) (snd : 2 ≤ cluster)
    (hin : s < g.sectorsPerCluster) :
    (volume.writeCluster g cluster buffer).sectors (g.clusterToLBA last + s) = volume.sectors (g.clusterToLBA last + s) := by
  funext off
  refine if_neg ?_
  rintro ⟨low, high⟩
  apply lba_apart ne first snd hin (t := g.clusterToLBA last + s - g.clusterToLBA cluster) (by omega)
  omega

end Volume

end RosKernel.Fat32
