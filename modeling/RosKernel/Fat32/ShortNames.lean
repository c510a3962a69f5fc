import RosKernel.Fat32.Insertion

/-! The short names of one directory over a run of the calls on it.

The chain of the directory and the chains its entries own stay apart, so a call changes the
directory only through the slots it means to write. Short names come from long ones with nothing
compared; they stay distinct as long as each new one is.
-/

set_option autoImplicit false

namespace RosKernel.Fat32

open Library List

variable {g : Geometry} {volume expanded after : Volume} {name : Name} {new : List Slot} {address place : Address}
  {dir start startCluster fileSize cluster : Nat} {clusters extra : List Nat} {counts : Address → Prop}

namespace Slot

def isDot (slot : Slot) : Bool :=
  slot.isDirectory && (slot.sfn == padTo 11 [0x2E] || slot.sfn == padTo 11 [0x2E, 0x2E])

/-- An entry that owns the chain it names. -/
def owns (slot : Slot) : Bool := slot.isEntry && !slot.isDot

end Slot

theorem makeSFNFromName_length (name : Name) : (makeSFNFromName name).length = 11 := by
  have pad : ∀ width (text : Name), text.length ≤ width → (padTo width text).length = width := by
    intro width text short
    unfold padTo
    rw [length_append, length_replicate]
    omega
  unfold makeSFNFromName
  rw [length_append, pad 3 _ (by rw [length_take]; omega)]
  split
  · rw [pad 8 _ ‹_›]
  · grind

theorem shortSlot_sfn (name : Name) (startCluster fileSize : Nat) :
    (shortSlot (makeSFNFromName name) startCluster fileSize).sfn = makeSFNFromName name := by
  have length := makeSFNFromName_length name
  generalize makeSFNFromName name = sfn at length
  match sfn, length with
  | [_, _, _, _, _, _, _, _, _, _, _], _ => rfl

theorem longSlots_isLong {utf16 : List Nat} {chk : UInt8} {lfnEntries parts : Nat} {ins : Bool} {slot : Slot}
    (mem : slot ∈ longSlots utf16 chk lfnEntries parts ins) : slot.isLong = true := by
  induction parts generalizing ins with
  | zero => exact nomatch mem
  | succ k ih =>
    rw [longSlots, mem_cons] at mem
    rcases mem with rfl | later
    · rfl
    · exact ih later

namespace Volume

theorem Inserted.entry_cases (ins : Inserted g volume dir clusters extra (entrySlots name startCluster fileSize) place expanded after)
    (holds : volume.Holds g dir clusters) (mem : address ∈ directoryAddresses g (clusters ++ extra))
    (isEntry : (after.slot address).isEntry = true) : address = place ∨
      address ∈ directoryAddresses g clusters ∧ after.slot address = volume.slot address := by
  obtain ⟨hf, pre, behind, -, split, last, filled⟩ := ins.slots
  have hin : (address, after.slot address) ∈ after.directorySlots g (clusters ++ extra) := mem_map.mpr ⟨address, mem, rfl⟩
  have old : ∀ places, (address, after.slot address) ∈ expanded.slots places → after.slot address = expanded.slot address := by
    intro places isOld
    obtain ⟨other, _, eq⟩ := mem_map.mp isOld
    obtain ⟨rfl, content⟩ := Prod.mk.inj eq
    exact content.symm
  have kept : after.slot address = expanded.slot address → address ∈ directoryAddresses g clusters ∧
      after.slot address = volume.slot address := by
    intro eq
    obtain ⟨cluster, isCluster, h⟩ := mem_flatMap.mp mem
    rcases mem_append.mp isCluster with isOld | isNew
    · have ne : cluster ∉ extra := fun isNew => ins.grown.fresh holds isNew isOld
      exact ⟨mem_flatMap.mpr ⟨cluster, isOld, h⟩,
        eq.trans (ins.grown.slot_eq (holds.inRange cluster isOld).1 ne h)⟩
    · rw [eq, ins.grown.slot_zero isNew h] at isEntry
      exact nomatch isEntry
  rw [filled, mem_append, mem_append] at hin
  rcases hin with (isBefore | isRun) | isBehind
  · exact .inr (kept (old pre isBefore))
  · refine .inl ?_
    have length := entrySlots_length name startCluster fileSize
    have run : runAddresses hf (entrySlots name startCluster fileSize).length =
        runAddresses hf (slotsNeeded name - 1) ++ [place] := by
      rw [last, length, slotsNeeded, Nat.add_sub_cancel]
      simp [runAddresses, range_succ]
    have count : (runAddresses hf (slotsNeeded name - 1)).length = (longSlots (toUtf16 name)
        (sfnChecksum (makeSFNFromName name)) (((toUtf16 name).length + 12) / 13) (((toUtf16 name).length + 12) / 13) false).length := by
      rw [longSlots_length]
      simp [runAddresses, slotsNeeded]
    rw [run] at isRun
    unfold entrySlots at isRun
    rw [zip_append count, mem_append] at isRun
    rcases isRun with isLong | isShort
    · have long := longSlots_isLong (of_mem_zip isLong).2
      rw [isEntry_iff] at isEntry
      cases long.symm.trans isEntry.2.2
    · grind
  · exact .inr (kept (old behind isBehind))

/-- The chains of a directory and of its entries are apart, and its short names are distinct, as
far as the entries at some places count. -/
structure Tidy (g : Geometry) (volume : Volume) (dir : Nat) (clusters : List Nat) (counts : Address → Prop) : Prop where
  holds : volume.Holds g dir clusters
  nonzero : dir ≠ 0
  owned : ∀ address ∈ directoryAddresses g clusters, counts address → (volume.slot address).owns = true →
    ∃ chain, volume.Holds g (volume.slot address).startCluster chain ∧ ∀ cluster ∈ chain, cluster ∉ clusters
  apart : ∀ first ∈ directoryAddresses g clusters, ∀ second ∈ directoryAddresses g clusters, first ≠ second →
    counts first → counts second → (volume.slot first).owns = true → (volume.slot second).owns = true →
    ∀ chain other, volume.Holds g (volume.slot first).startCluster chain →
      volume.Holds g (volume.slot second).startCluster other → ∀ cluster ∈ chain, cluster ∉ other
  names : ∀ first ∈ directoryAddresses g clusters, ∀ second ∈ directoryAddresses g clusters, first ≠ second →
    counts first → counts second → (volume.slot first).isEntry = true → (volume.slot second).isEntry = true →
    (volume.slot first).sfn ≠ (volume.slot second).sfn

/-- No entry that counts owns a cluster of a chain. -/
def Clear (g : Geometry) (volume : Volume) (clusters : List Nat) (counts : Address → Prop) (chain : List Nat) : Prop :=
  ∀ address ∈ directoryAddresses g clusters, counts address → (volume.slot address).owns = true →
    ∀ other, volume.Holds g (volume.slot address).startCluster other → ∀ cluster ∈ chain, cluster ∉ other

/-- A change that makes no new entry and keeps the chains of the old ones. -/
structure Carried (g : Geometry) (volume : Volume) (dir : Nat) (clusters : List Nat) (counts : Address → Prop)
    (after : Volume) (others : List Nat) (counts' : Address → Prop) : Prop where
  holds : after.Holds g dir others
  entries : ∀ address ∈ directoryAddresses g others, counts' address → (after.slot address).isEntry = true →
    counts address ∧ address ∈ directoryAddresses g clusters ∧ after.slot address = volume.slot address
  chains : ∀ address ∈ directoryAddresses g clusters, counts address → counts' address → (volume.slot address).owns = true →
    ∀ chain, volume.Holds g (volume.slot address).startCluster chain →
      after.Holds g (volume.slot address).startCluster chain ∧ ∀ cluster ∈ chain, cluster ∉ others

theorem owns_isEntry {slot : Slot} (owns : slot.owns = true) : slot.isEntry = true := (Bool.and_eq_true_iff.mp owns).1

namespace Tidy

variable {others : List Nat} {counts' : Address → Prop}

section

variable (tidy : Tidy g volume dir clusters counts) (carried : Carried g volume dir clusters counts after others counts')
include tidy carried

theorem transfer : Tidy g after dir others counts' := by
  obtain ⟨holds, entries, chains⟩ := carried
  refine ⟨holds, tidy.nonzero, ?_, ?_, ?_⟩
  · intro address mem cnt owns
    obtain ⟨counts, old, eq⟩ := entries address mem cnt (owns_isEntry owns)
    rw [eq] at owns ⊢
    obtain ⟨chain, held, _⟩ := tidy.owned address old counts owns
    exact ⟨chain, chains address old counts cnt owns chain held⟩
  · intro first isFirst snd isSecond dist firstCounts secondCounts firstOwns secondOwns chain other held otherHeld
    obtain ⟨a, oldFirst, sameFirst⟩ := entries first isFirst firstCounts (owns_isEntry firstOwns)
    obtain ⟨b, oldSecond, sameSecond⟩ := entries snd isSecond secondCounts (owns_isEntry secondOwns)
    rw [sameFirst] at firstOwns held
    rw [sameSecond] at secondOwns otherHeld
    obtain ⟨_, firstHeld, _⟩ := tidy.owned first oldFirst a firstOwns
    obtain ⟨_, secondHeld, _⟩ := tidy.owned snd oldSecond b secondOwns
    obtain rfl := held.unique (chains first oldFirst a firstCounts firstOwns _ firstHeld).1
    obtain rfl := otherHeld.unique (chains snd oldSecond b secondCounts secondOwns _ secondHeld).1
    exact tidy.apart first oldFirst snd oldSecond dist a b firstOwns secondOwns _ _ firstHeld secondHeld
  · intro first isFirst snd isSecond dist firstCounts secondCounts firstEntry secondEntry
    obtain ⟨a, oldFirst, sameFirst⟩ := entries first isFirst firstCounts firstEntry
    obtain ⟨b, oldSecond, sameSecond⟩ := entries snd isSecond secondCounts secondEntry
    rw [sameFirst] at firstEntry ⊢
    rw [sameSecond] at secondEntry ⊢
    exact tidy.names first oldFirst snd oldSecond dist a b firstEntry secondEntry

theorem clear {chain : List Nat} (clear : Clear g volume clusters counts chain) : Clear g after others counts' chain := by
  intro address mem cnt owns other held
  obtain ⟨counts, old, eq⟩ := carried.entries address mem cnt (owns_isEntry owns)
  rw [eq] at owns held
  obtain ⟨own, ownHeld, _⟩ := tidy.owned address old counts owns
  obtain rfl := held.unique (carried.chains address old counts cnt owns own ownHeld).1
  exact clear address old counts owns _ ownHeld

end

theorem clear_of_apart {chain : List Nat} (tidy : Tidy g volume dir clusters counts) (mem : place ∈ directoryAddresses g clusters)
    (cnt : counts place) (owns : (volume.slot place).owns = true) (held : volume.Holds g (volume.slot place).startCluster chain) :
    Clear g volume clusters (fun address => counts address ∧ address ≠ place) chain := by
  intro address isPlace others otherOwns other otherHeld
  exact tidy.apart place mem address isPlace (Ne.symm others.2) cnt others.1 owns otherOwns _ _ held otherHeld

theorem add {chain : List Nat} (tidy : Tidy g volume dir clusters fun address => counts address ∧ address ≠ place)
    (held : (volume.slot place).owns = true → volume.Holds g (volume.slot place).startCluster chain ∧ (∀ cluster ∈ chain, cluster ∉ clusters) ∧
      Clear g volume clusters (fun address => counts address ∧ address ≠ place) chain)
    (fresh : (volume.slot place).isEntry = true → ∀ address ∈ directoryAddresses g clusters, counts address → address ≠ place →
      (volume.slot address).isEntry = true → (volume.slot address).sfn ≠ (volume.slot place).sfn) :
    Tidy g volume dir clusters counts := by
  refine ⟨tidy.holds, tidy.nonzero, ?_, ?_, ?_⟩
  · intro address mem cnt owns
    by_cases isNew : address = place
    · grind
    · exact tidy.owned address mem ⟨cnt, isNew⟩ owns
  · intro first isFirst snd isSecond dist firstCounts secondCounts firstOwns secondOwns left right leftHeld rightHeld
    by_cases firstNew : first = place
    · subst firstNew
      obtain ⟨own, _, ne⟩ := held firstOwns
      rw [leftHeld.unique own]
      exact ne snd isSecond ⟨secondCounts, Ne.symm dist⟩ secondOwns right rightHeld
    · by_cases secondNew : snd = place
      · subst secondNew
        obtain ⟨own, _, ne⟩ := held secondOwns
        rw [rightHeld.unique own]
        intro cluster inLeft inChain
        exact ne first isFirst ⟨firstCounts, firstNew⟩ firstOwns left leftHeld cluster inChain inLeft
      · exact tidy.apart first isFirst snd isSecond dist ⟨firstCounts, firstNew⟩ ⟨secondCounts, secondNew⟩ firstOwns secondOwns
          left right leftHeld rightHeld
  · intro first isFirst snd isSecond dist firstCounts secondCounts firstEntry secondEntry
    by_cases firstNew : first = place
    · grind
    · by_cases secondNew : snd = place
      · grind
      · exact tidy.names first isFirst snd isSecond dist ⟨firstCounts, firstNew⟩ ⟨secondCounts, secondNew⟩ firstEntry secondEntry

section

variable (tidy : Tidy g volume dir clusters counts)
include tidy

theorem carried (holds : after.Holds g dir others)
    (entries : ∀ address ∈ directoryAddresses g others, counts' address → (after.slot address).isEntry = true → counts address ∧ address ∈ directoryAddresses g clusters ∧ after.slot address = volume.slot address)
    (chains : ∀ first chain, volume.Holds g first chain → (∀ cluster ∈ chain, cluster ∉ clusters) → after.Holds g first chain ∧ ∀ cluster ∈ chain, cluster ∉ others) :
    Carried g volume dir clusters counts after others counts' := by
  refine ⟨holds, entries, fun address mem cnt _ owns chain held => ?_⟩
  obtain ⟨own, ownHeld, ne⟩ := tidy.owned address mem cnt owns
  obtain rfl := held.unique ownHeld
  exact chains _ chain held ne

theorem carried_grown (grown : Grown g volume dir clusters extra after) :
    Carried g volume dir clusters counts after (clusters ++ extra) counts := by
  refine tidy.carried grown.holds ?_ ?_
  · intro address mem cnt isEntry
    obtain ⟨cluster, isCluster, h⟩ := mem_flatMap.mp mem
    rcases mem_append.mp isCluster with isOld | isNew
    · exact ⟨cnt, mem_flatMap.mpr ⟨cluster, isOld, h⟩, grown.slot_eq (tidy.holds.inRange cluster isOld).1
        (fun isNew => grown.fresh tidy.holds isNew isOld) h⟩
    · rw [grown.slot_zero isNew h] at isEntry
      exact nomatch isEntry
  · intro first chain held ne
    refine ⟨grown.keeps held ne, fun cluster hin inDirectory => ?_⟩
    rcases mem_append.mp inDirectory with isOld | isNew
    · exact ne cluster hin isOld
    · exact held.inUse hin (grown.free cluster isNew)

theorem carried_inserted
    (ins : Inserted g volume dir clusters extra (entrySlots name startCluster fileSize) place expanded after) :
    Carried g volume dir clusters counts after (clusters ++ extra) fun address => counts address ∧ address ≠ place := by
  refine tidy.carried ins.holds ?_ ?_
  · intro address mem cnt isEntry
    rcases ins.entry_cases tidy.holds mem isEntry with isNew | old
    · exact absurd isNew cnt.2
    · exact ⟨cnt.1, old⟩
  · intro first chain held ne
    refine ⟨ins.keeps held ne, fun cluster hin inDirectory => ?_⟩
    rcases mem_append.mp inDirectory with isOld | isNew
    · exact ne cluster hin isOld
    · exact held.inUse hin (ins.grown.free cluster isNew)

theorem freed {chain : List Nat} (held : volume.Holds g start chain) (ne : ∀ cluster ∈ chain, cluster ∉ clusters)
    (clear : Clear g volume clusters counts chain) : Tidy g (volume.freeClusterChain g start) dir clusters counts := by
  have sectors := (freeClusterChain_spec held).1
  refine tidy.transfer ⟨tidy.holds.freed held fun cluster hin isFreed => ne cluster isFreed hin, ?_, ?_⟩
  · intro address mem cnt _
    exact ⟨cnt, mem, slot_congr (congrFun sectors _)⟩
  · intro address mem cnt _ owns other otherHeld
    obtain ⟨own, ownHeld, ownApart⟩ := tidy.owned address mem cnt owns
    obtain rfl := otherHeld.unique ownHeld
    exact ⟨otherHeld.freed held fun cluster hin isFreed => clear address mem cnt owns other otherHeld cluster isFreed hin, ownApart⟩

end

theorem removed (tidy : Tidy g volume dir clusters fun other => counts other ∧ other ≠ address)
    (mem : address ∈ directoryAddresses g clusters) :
    Tidy g (volume.removeDirectoryEntryAndLFNs g dir address) dir clusters counts := by
  obtain ⟨before, behind, split⟩ := append_of_mem mem
  have removed := removeDirectoryEntryAndLFNs_spec tidy.holds tidy.nonzero split
  obtain ⟨_, gone, _, _, marks⟩ := removed.marks
  refine tidy.transfer (tidy.carried (tidy.holds.congr fun _ _ => congrFun removed.fat _) ?_ ?_)
  · intro other isOther counted isEntry
    have slot := marks other (aligned isOther)
    by_cases marked : other = address ∨ other ∈ gone
    · rw [if_pos marked] at slot
      rw [slot] at isEntry
      simp [Slot.isEntry, Slot.marked_isFree] at isEntry
    · grind
  · intro first chain held apart
    exact ⟨held.congr fun _ _ => congrFun removed.fat _, apart⟩

end Tidy

/-- Every entry counts. -/
abbrev AllTidy (g : Geometry) (volume : Volume) (dir : Nat) (clusters : List Nat) : Prop :=
  Tidy g volume dir clusters fun _ => True

/-- The places of the slots of a directory. -/
def placesOf (g : Geometry) (volume : Volume) (dir : Nat) : List Address :=
  directoryAddresses g (volume.chainFrom (g.totalClusters + 3) dir)

/-- No entry has the short name of a long one, the entry at one place apart. -/
def FreshName (g : Geometry) (volume : Volume) (dir : Nat) (name : Name) (except : Option Address) : Prop :=
  ∀ address ∈ volume.placesOf g dir, some address ≠ except → (volume.slot address).isEntry = true →
    (volume.slot address).sfn ≠ makeSFNFromName name

theorem placesOf_eq (holds : volume.Holds g dir clusters) (nz : dir ≠ 0) :
    volume.placesOf g dir = directoryAddresses g clusters := by
  rw [placesOf, holds.chainFrom_eq nz]

theorem found_in {listed : Listed} {want : Name} (holds : volume.Holds g dir clusters) (nz : dir ≠ 0)
    (hf : volume.findFileInDir g want dir = some listed) : volume.slot listed.address = listed.entry ∧
      listed.entry.isEntry = true ∧ listed.address ∈ directoryAddresses g clusters := by
  obtain ⟨content, isEntry, pre, behind, split⟩ := listed_address holds nz (mem_of_find?_eq_some hf)
  exact ⟨content, isEntry, by simp [split]⟩

theorem Tidy.weaken {counts' : Address → Prop} (tidy : Tidy g volume dir clusters counts) (less : ∀ address, counts' address → counts address) :
    Tidy g volume dir clusters counts' :=
  tidy.transfer <| tidy.carried tidy.holds (fun address mem cnt _ => ⟨less address cnt, mem, rfl⟩)
    fun _ _ held ne => ⟨held, ne⟩

theorem createNodeIn_tidy (tidy : AllTidy g volume dir clusters) (fresh : volume.FreshName g dir name none) :
    ∃ clusters, AllTidy g (volume.createNodeIn g dir name).1 dir clusters := by
  obtain ⟨extra, expanded, grown, failed, success⟩ := @createDirectoryEntry_spec g volume name dir 0 0 clusters tidy.holds tidy.nonzero
  have eq : (volume.createNodeIn g dir name).1 = (volume.createDirectoryEntry g dir name 0 0).1 := by
    unfold createNodeIn
    split <;> simp [*]
  rw [eq]
  refine ⟨clusters ++ extra, ?_⟩
  cases answer : (volume.createDirectoryEntry g dir name 0 0).2 with
  | none =>
    rw [failed answer]
    exact tidy.transfer (tidy.carried_grown grown)
  | some place =>
    have ins := success place answer
    have slot := ins.slot_place
    have fields := shortSlot_fields (makeSFNFromName name) (show 0 < 2 ^ 32 by decide) (show 0 < 2 ^ 32 by decide)
    have old := tidy.transfer (tidy.carried_inserted ins)
    refine @Tidy.add _ _ _ _ _ _ [] old (fun _ => ⟨?_, forall_mem_nil _, fun _ _ _ _ _ _ => forall_mem_nil _⟩) ?_
    · rw [slot, fields.1]
      exact Holds.none
    · intro _ address mem _ ne isEntry
      rcases ins.entry_cases tidy.holds mem isEntry with isNew | ⟨isOld, content⟩
      · exact absurd isNew ne
      · rw [content] at isEntry ⊢
        rw [slot, shortSlot_sfn]
        exact fresh address (placesOf_eq tidy.holds tidy.nonzero ▸ isOld) nofun isEntry

theorem Tidy.carried_writeSlot {slot : Slot} (tidy : Tidy g volume dir clusters fun address => counts address ∧ address ≠ place)
    (mem : place ∈ directoryAddresses g clusters) :
    Carried g volume dir clusters (fun address => counts address ∧ address ≠ place) (volume.writeSlot place slot) clusters
      fun address => counts address ∧ address ≠ place := by
  refine tidy.carried (tidy.holds.congr fun _ _ => rfl) ?_ ?_
  · intro address isPlace counted _
    exact ⟨counted, isPlace, slot_writeSlot_of_ne counted.2 (aligned isPlace) (aligned mem)⟩
  · intro first chain held apart
    exact ⟨held.congr fun _ _ => rfl, apart⟩

theorem carried_dotCluster {ht : Volume} {newCl : Nat} (tidy : AllTidy g volume dir clusters)
    (alloc : Allocated g volume 0 newCl ht) :
    Carried g volume dir clusters (fun _ => True)
        ((ht.setNextCluster newCl 0x0FFFFFFF).writeCluster g newCl (dotCluster newCl dir)) clusters (fun _ => True) ∧
      ((ht.setNextCluster newCl 0x0FFFFFFF).writeCluster g newCl (dotCluster newCl dir)).Holds g newCl [newCl] ∧
      Clear g volume clusters (fun _ => True) [newCl] := by
  have out := alloc.fresh tidy.holds
  have pos := alloc.inRange.1
  have fat : ∀ cluster, cluster ≠ newCl →
      ((ht.setNextCluster newCl 0x0FFFFFFF).writeCluster g newCl (dotCluster newCl dir)).fat cluster = volume.fat cluster := by
    intro cluster ne
    rw [writeCluster_fat, setNextCluster_fat_of_ne ne]
    exact alloc.frame cluster ne (.inl rfl)
  have keeps : ∀ first chain, volume.Holds g first chain →
      ((ht.setNextCluster newCl 0x0FFFFFFF).writeCluster g newCl (dotCluster newCl dir)).Holds g first chain := by
    intro first chain held
    refine held.congr fun cluster hin => fat cluster ?_
    rintro rfl
    exact alloc.fresh held hin
  refine ⟨tidy.carried (keeps _ _ tidy.holds) ?_ fun first chain held ne => ⟨keeps _ _ held, ne⟩, ⟨?_, ?_⟩, ?_⟩
  · intro address mem _ _
    refine ⟨trivial, mem, slot_congr ?_⟩
    obtain ⟨cluster, isCluster, h⟩ := mem_flatMap.mp mem
    obtain ⟨s, low, i, _, rfl⟩ := mem_clusterAddresses.mp h
    have ne : cluster ≠ newCl := fun eq => out (eq ▸ isCluster)
    rw [writeCluster_sectors ne (tidy.holds.inRange cluster isCluster).1 pos low,
      setNextCluster_sectors, alloc.sectors]
  · have ends : (ht.setNextCluster newCl 0x0FFFFFFF).next newCl = none := by
      unfold next
      rw [getNextCluster_setNextCluster (by decide), if_neg (by decide)]
    rw [if_neg (by omega)]
    exact ⟨rfl, ends⟩
  · simpa using alloc.inRange
  · intro address _ _ _ other held cluster isNew
    obtain rfl := mem_singleton.mp isNew
    exact alloc.fresh held

theorem Inserted.mem_place (ins : Inserted g volume dir clusters extra (entrySlots name startCluster fileSize) place expanded after) :
    place ∈ directoryAddresses g (clusters ++ extra) := by
  obtain ⟨hf, pre, behind, -, split, last, -⟩ := ins.slots
  have inRun : place ∈ runAddresses hf (entrySlots name startCluster fileSize).length := by
    rw [last, entrySlots_length]
    exact mem_map.mpr ⟨slotsNeeded name - 1, mem_range.mpr (Nat.sub_lt (slotsNeeded_pos name) Nat.one_pos), rfl⟩
  rw [split]
  exact mem_append_left _ (mem_append_right _ inRun)

theorem markDirectory_slot (volume : Volume) (place : Address) : ((volume.markDirectory place).slot place).sfn = (volume.slot place).sfn ∧
    ((volume.markDirectory place).slot place).startCluster = (volume.slot place).startCluster := by
  unfold markDirectory
  rw [slot_writeSlot]
  exact ⟨rfl, rfl⟩

section

variable (tidy : AllTidy g volume dir clusters)
include tidy

theorem mkDirIn_tidy (fresh : volume.FreshName g dir name none) :
    ∃ clusters, AllTidy g (volume.mkDirIn g dir name).1 dir clusters := by
  unfold mkDirIn
  split
  · exact ⟨clusters, tidy⟩
  · rename_i newCl ht alloc
    have allocated := allocateCluster_spec alloc
    obtain ⟨carried, held, clear⟩ := carried_dotCluster tidy allocated
    have out : ∀ cluster ∈ [newCl], cluster ∉ clusters := by
      intro cluster isNew
      rw [mem_singleton.mp isNew]
      exact allocated.fresh tidy.holds
    dsimp only
    generalize (ht.setNextCluster newCl 0x0FFFFFFF).writeCluster g newCl (dotCluster newCl dir) = written at carried held
    have pre := tidy.transfer carried
    have clearBefore := tidy.clear carried clear
    obtain ⟨extra, expanded, grown, failed, success⟩ := @createDirectoryEntry_spec g written name dir newCl 0 clusters pre.holds pre.nonzero
    refine ⟨clusters ++ extra, ?_⟩
    have ne : ∀ cluster ∈ [newCl], cluster ∉ clusters ++ extra := by
      intro cluster isNew inDirectory
      rcases mem_append.mp inDirectory with isOld | isExtra
      · exact out cluster isNew isOld
      · exact held.inUse isNew (grown.free cluster isExtra)
    split
    · rename_i created creation
      rw [creation] at failed
      rw [show created = expanded from failed rfl]
      have grownCarried := pre.carried_grown grown
      exact (pre.transfer grownCarried).freed (grown.keeps held out) ne (pre.clear grownCarried clearBefore)
    · rename_i created place creation
      rw [creation] at success
      have ins := success place rfl
      have others := pre.carried_inserted ins
      have inserting := pre.transfer others
      have marking : Carried g created dir (clusters ++ extra) _ (created.markDirectory place) _ _ :=
        inserting.carried_writeSlot ins.mem_place
      obtain ⟨sfn, first⟩ := markDirectory_slot created place
      have bound : newCl < 2 ^ 32 := Nat.lt_trans allocated.inRange.lt_endOfChain (by decide)
      have fields := shortSlot_fields (makeSFNFromName name) bound (show 0 < 2 ^ 32 by decide)
      rw [ins.slot_place, shortSlot_sfn] at sfn
      rw [ins.slot_place, fields.1] at first
      refine @Tidy.add _ _ _ _ _ _ [newCl] (inserting.transfer marking) (fun _ => ⟨?_, ne, ?_⟩) ?_
      · rw [first]
        exact (ins.keeps held out).congr fun _ _ => rfl
      · exact inserting.clear marking (pre.clear others clearBefore)
      · intro _ address mem _ notNew isEntry
        obtain ⟨_, _, unmarked⟩ := marking.entries address mem ⟨trivial, notNew⟩ isEntry
        rw [unmarked] at isEntry ⊢
        obtain ⟨_, isOld, unwritten⟩ := others.entries address mem ⟨trivial, notNew⟩ isEntry
        rw [unwritten] at isEntry ⊢
        obtain ⟨_, _, content⟩ := carried.entries address isOld trivial isEntry
        rw [content] at isEntry ⊢
        rw [sfn]
        exact fresh address (placesOf_eq tidy.holds tidy.nonzero ▸ isOld) nofun isEntry

theorem freeAndRemove_tidy (mem : address ∈ directoryAddresses g clusters) (owns : (volume.slot address).owns = true) :
    AllTidy g ((volume.freeClusterChain g (volume.slot address).startCluster).removeDirectoryEntryAndLFNs g dir address) dir clusters := by
  obtain ⟨chain, held, ne⟩ := tidy.owned address mem trivial owns
  have others : Tidy g volume dir clusters fun other => True ∧ other ≠ address := tidy.weaken fun _ _ => trivial
  exact (others.freed held ne (tidy.clear_of_apart mem trivial owns held)).removed mem

theorem deleteIn_tidy : AllTidy g (volume.deleteIn g dir name).1 dir clusters := by
  unfold deleteIn
  split
  · exact tidy
  · rename_i de hf
    obtain ⟨content, isEntry, mem⟩ := found_in tidy.holds tidy.nonzero hf
    split
    · exact tidy
    · rename_i isFile
      have owns : (volume.slot de.address).owns = true := by
        rw [content]
        simp [Slot.owns, Slot.isDot, isEntry, isFile]
      have done := freeAndRemove_tidy tidy mem owns
      rwa [content] at done

theorem rmDirIn_tidy (notDot : ∀ de, volume.findFileInDir g name dir = some de → de.entry.isDot = false) :
    AllTidy g (volume.rmDirIn g dir name).1 dir clusters := by
  unfold rmDirIn
  split
  · exact tidy
  · rename_i de hf
    obtain ⟨content, isEntry, mem⟩ := found_in tidy.holds tidy.nonzero hf
    split
    · exact tidy
    · split
      · exact tidy
      · have owns : (volume.slot de.address).owns = true := by
          rw [content]
          simp [Slot.owns, notDot de hf, isEntry]
        have done := freeAndRemove_tidy tidy mem owns
        rwa [content] at done

theorem renameIn_tidy {newName : Name}
    (fresh : ∀ oldDe, volume.findFileInDir g name dir = some oldDe → oldDe.entry.isDirectory = false → volume.findFileInDir g newName dir = none → volume.FreshName g dir newName (some oldDe.address)) :
    ∃ clusters, AllTidy g (volume.renameIn g dir name dir newName).1 dir clusters := by
  unfold renameIn
  split
  · exact ⟨clusters, tidy⟩
  · rename_i oldDe hf
    obtain ⟨content, isEntry, mem⟩ := found_in tidy.holds tidy.nonzero hf
    split
    · exact ⟨clusters, tidy⟩
    · rename_i isFile
      split
      · exact ⟨clusters, tidy⟩
      · rename_i absent
        rw [Bool.not_eq_true] at isFile
        rw [Option.not_isSome_iff_eq_none] at absent
        have isFresh := fresh oldDe hf isFile absent
        obtain ⟨extra, expanded, grown, failed, success⟩ := @createDirectoryEntry_spec g volume newName dir
          oldDe.entry.startCluster oldDe.entry.fileSize clusters tidy.holds tidy.nonzero
        refine ⟨clusters ++ extra, ?_⟩
        split
        · rename_i created creation
          rw [creation] at failed
          rw [show created = expanded from failed rfl]
          exact tidy.transfer (tidy.carried_grown grown)
        · rename_i created place creation
          rw [creation] at success
          have ins := success place rfl
          have bounds := startCluster_lt oldDe.entry
          have fields := shortSlot_fields (makeSFNFromName newName) bounds.1 bounds.2
          have slot := ins.slot_place
          have owns : (volume.slot oldDe.address).owns = true := by
            rw [content]
            simp [Slot.owns, Slot.isDot, isEntry, isFile]
          obtain ⟨chain, held, ne⟩ := tidy.owned oldDe.address mem trivial owns
          have others : Tidy g volume dir clusters fun other => True ∧ other ≠ oldDe.address := tidy.weaken fun _ _ => trivial
          have kept := ins.keeps held ne
          have carried := others.carried_inserted ins
          refine Tidy.removed (@Tidy.add _ _ _ _ _ _ chain (others.transfer carried) (fun _ => ⟨?_, ?_, ?_⟩) ?_) ?_
          · rw [slot, fields.1, ← content]
            exact kept
          · intro cluster hin inDirectory
            rcases mem_append.mp inDirectory with isOld | isNew
            · exact ne cluster hin isOld
            · exact held.inUse hin (ins.grown.free cluster isNew)
          · exact others.clear carried (tidy.clear_of_apart mem trivial owns held)
          · intro _ address isPlace cnt notNew isEntry
            rcases ins.entry_cases tidy.holds isPlace isEntry with isNew | ⟨isOld, eq⟩
            · exact absurd isNew notNew
            · rw [eq] at isEntry ⊢
              rw [slot, shortSlot_sfn]
              refine isFresh address (placesOf_eq tidy.holds tidy.nonzero ▸ isOld) ?_ isEntry
              intro isOldDe
              exact cnt.2 (Option.some.inj isOldDe)
          · obtain ⟨cluster, isCluster, h⟩ := mem_flatMap.mp mem
            exact mem_flatMap.mpr ⟨cluster, mem_append_left _ isCluster, h⟩

end

end Volume

end RosKernel.Fat32
