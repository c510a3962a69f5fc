import RosKernel.Library.Digits
import RosKernel.Ext2.BlockTree
import RosKernel.Ext2.Getdents

/-! A directory listed by any number of `ReadDir` calls.

The position counts the entries that were returned, so a call goes on where the one before it
stopped, in whatever block that was.
-/

set_option autoImplicit false

namespace RosKernel.Ext2

open Library List

/-- The answers of calls with buffers of these sizes, one after another. -/
def Device.calls (dev : Device) (iBlock : Nat → Nat) : Nat → List Nat → List (List UInt8)
  | _, [] => []
  | position, size :: sizes =>
    (dev.readDir iBlock position size).1 :: dev.calls iBlock (dev.readDir iBlock position size).2 sizes

def Device.entriesPerBlock (dev : Device) : Nat := dev.blockSize / 4

def Device.pointer (dev : Device) (blockNum slot : Nat) : Nat :=
  match dev.readBlock blockNum with
  | none => 0
  | some data => load data (4 * slot) 4

/-- The block at the end of a path of slots, the last slot first; zero without one. -/
def Device.blockAt (dev : Device) (iBlock : Nat → Nat) : List Nat → Nat
  | [] => 0
  | [root] => iBlock root
  | slot :: path => if dev.blockAt iBlock path = 0 then 0 else dev.pointer (dev.blockAt iBlock path) slot

/-- Every block of pointers, through `depth` levels, can be read. -/
def Device.Readable (dev : Device) : Nat → Nat → Prop
  | 0, _ => True
  | depth + 1, blockNum => (dev.readBlock blockNum).isSome = true ∧
      ∀ slot < dev.entriesPerBlock, dev.pointer blockNum slot ≠ 0 → dev.Readable depth (dev.pointer blockNum slot)

/-- A well-formed directory: its blocks, in the order of the file, are chains of records. -/
structure Device.Directory (dev : Device) (iBlock : Nat → Nat) (blocks : List (List DirRecord)) : Prop where
  pointers : ∀ depth, 1 ≤ depth → depth ≤ 3 → iBlock (11 + depth) ≠ 0 → dev.Readable depth (iBlock (11 + depth))
  records : List.Forall₂ (fun blockNum records => ∃ data, dev.readBlock blockNum = some data ∧ Records data 0 records dev.blockSize)
    (((range (fileBlocks dev.entriesPerBlock)).map fun index =>
      dev.blockAt iBlock (route dev.entriesPerBlock index)).filter (· ≠ 0)) blocks
  named : ∀ records ∈ blocks, ∀ record ∈ records, record.live = true → record.name ≠ []

variable {dev : Device} {iBlock : Nat → Nat} {blocks : List (List DirRecord)} {sizes : List Nat} {position : Nat}

/-- The blocks under a block with the missing ones, which are zero. -/
def Device.leaves (dev : Device) : Nat → Nat → List Nat
  | 0, blockNum => [blockNum]
  | depth + 1, blockNum => (range dev.entriesPerBlock).flatMap fun slot =>
      dev.leaves depth (if blockNum = 0 then 0 else dev.pointer blockNum slot)

theorem leaves_zero (dev : Device) (depth : Nat) : (dev.leaves depth 0).filter (· ≠ 0) = [] := by
  induction depth with
  | zero => rfl
  | succ depth ih =>
    rw [Device.leaves, filter_flatMap]
    exact flatMap_eq_nil_iff.mpr fun slot _ => ih

theorem pointers_eq (dev : Device) {blockNum : Nat} (readable : (dev.readBlock blockNum).isSome = true) :
    dev.pointers blockNum = ((range dev.entriesPerBlock).map (dev.pointer blockNum)).filter (· ≠ 0) := by
  obtain ⟨data, read⟩ := Option.isSome_iff_exists.mp readable
  unfold Device.pointers Device.pointer
  rw [read]
  rfl

theorem blocksUnder_eq {depth blockNum : Nat} (readable : dev.Readable depth blockNum) (there : blockNum ≠ 0) :
    dev.blocksUnder depth blockNum = (dev.leaves depth blockNum).filter (· ≠ 0) := by
  induction depth generalizing blockNum with
  | zero => simp [Device.blocksUnder, Device.leaves, there]
  | succ depth ih =>
    obtain ⟨h, below⟩ := readable
    rw [Device.blocksUnder, Device.leaves, pointers_eq dev h, filter_flatMap]
    simp only [if_neg there]
    generalize entries : dev.entriesPerBlock = count at below
    clear entries
    induction count with
    | zero => rfl
    | succ count more =>
      rw [range_succ, map_append, filter_append, flatMap_append, flatMap_append,
        more fun slot lt => below slot (Nat.lt_succ_of_lt lt)]
      congr 1
      rw [map_singleton, flatMap_singleton]
      by_cases zero : dev.pointer blockNum count = 0
      · rw [zero, leaves_zero]
        rfl
      · grind

section

variable (dev : Device) (iBlock : Nat → Nat) {path : List Nat} (below : path ≠ [])

include below

theorem leaves_succ (depth : Nat) : dev.leaves (depth + 1) (dev.blockAt iBlock path) =
    (range dev.entriesPerBlock).flatMap fun slot => dev.leaves depth (dev.blockAt iBlock (slot :: path)) := by
  obtain ⟨first, rest, rfl⟩ := exists_cons_of_ne_nil below
  rfl

theorem leaves_one : dev.leaves 1 (dev.blockAt iBlock path) =
    (range dev.entriesPerBlock).map fun slot => dev.blockAt iBlock (slot :: path) := by
  rw [leaves_succ dev iBlock below 0]
  exact map_eq_flatMap.symm

/-- One level more: the index of a leaf is its slot and the index under that slot. -/
theorem leaves_more (inner : Nat → List Nat) {depth size : Nat}
    (under : ∀ slot, dev.leaves depth (dev.blockAt iBlock (slot :: path)) =
      (range size).map fun index => dev.blockAt iBlock (inner index ++ slot :: path)) :
    dev.leaves (depth + 1) (dev.blockAt iBlock path) = (range (dev.entriesPerBlock * size)).map fun index =>
      dev.blockAt iBlock (inner (index % size) ++ index / size :: path) := by
  rw [leaves_succ dev iBlock below, range_mul_map]
  refine flatMap_congr fun slot _ => ?_
  rw [under]
  refine map_congr_left fun k mem => ?_
  have lt : k < size := mem_range.mp mem
  rw [Nat.mul_add_mod_self_right, Nat.mod_eq_of_lt lt, Nat.add_comm, Nat.add_mul_div_right _ _ (by omega),
    Nat.div_eq_of_lt lt, Nat.zero_add]

theorem leaves_two : dev.leaves 2 (dev.blockAt iBlock path) =
    (range (dev.entriesPerBlock * dev.entriesPerBlock)).map fun index =>
      dev.blockAt iBlock (index % dev.entriesPerBlock :: index / dev.entriesPerBlock :: path) :=
  leaves_more dev iBlock below (fun index => [index]) fun _ => leaves_one dev iBlock (cons_ne_nil _ _)

theorem leaves_three : dev.leaves 3 (dev.blockAt iBlock path) =
    (range (dev.entriesPerBlock * (dev.entriesPerBlock * dev.entriesPerBlock))).map fun index =>
      dev.blockAt iBlock (index % (dev.entriesPerBlock * dev.entriesPerBlock) % dev.entriesPerBlock ::
        index % (dev.entriesPerBlock * dev.entriesPerBlock) / dev.entriesPerBlock ::
        index / (dev.entriesPerBlock * dev.entriesPerBlock) :: path) :=
  leaves_more dev iBlock below (fun index => [index % dev.entriesPerBlock, index / dev.entriesPerBlock])
    fun _ => leaves_two dev iBlock (cons_ne_nil _ _)

end

theorem dataBlocks_eq (ptrs : ∀ depth, 1 ≤ depth → depth ≤ 3 → iBlock (11 + depth) ≠ 0 → dev.Readable depth (iBlock (11 + depth))) :
    dev.dataBlocks iBlock = ((range (fileBlocks dev.entriesPerBlock)).map fun index =>
      dev.blockAt iBlock (route dev.entriesPerBlock index)).filter (· ≠ 0) := by
  have under : ∀ depth, 1 ≤ depth → depth ≤ 3 →
      (if iBlock (11 + depth) = 0 then [] else dev.blocksUnder depth (iBlock (11 + depth))) =
        (dev.leaves depth (dev.blockAt iBlock [11 + depth])).filter (· ≠ 0) := by
    intro depth low high
    change _ = (dev.leaves depth (iBlock (11 + depth))).filter _
    split
    case isTrue zero => rw [zero, leaves_zero]
    case isFalse there => exact blocksUnder_eq (ptrs depth low high there) there
  have root : ∀ slot : Nat, [slot] ≠ [] := fun slot => cons_ne_nil _ _
  have total : fileBlocks dev.entriesPerBlock = 12 + (dev.entriesPerBlock + (dev.entriesPerBlock * dev.entriesPerBlock +
      dev.entriesPerBlock * (dev.entriesPerBlock * dev.entriesPerBlock))) := by
    unfold fileBlocks
    ring
  have direct : (range 12).map (fun index => dev.blockAt iBlock (route dev.entriesPerBlock index)) = (range 12).map iBlock := by
    refine map_congr_left fun index mem => ?_
    rw [route, if_pos (mem_range.mp mem)]
    rfl
  have single : (range dev.entriesPerBlock).map (fun index => dev.blockAt iBlock (route dev.entriesPerBlock (12 + index))) =
      dev.leaves 1 (dev.blockAt iBlock [12]) := by
    rw [leaves_one dev iBlock (root 12)]
    refine map_congr_left fun index mem => ?_
    have lt : index < dev.entriesPerBlock := mem_range.mp mem
    rw [route, if_neg (by omega), if_pos (by omega), Nat.add_sub_cancel_left]
  have double : (range (dev.entriesPerBlock * dev.entriesPerBlock)).map (fun index =>
      dev.blockAt iBlock (route dev.entriesPerBlock (12 + (dev.entriesPerBlock + index)))) = dev.leaves 2 (dev.blockAt iBlock [13]) := by
    rw [leaves_two dev iBlock (root 13)]
    refine map_congr_left fun index mem => ?_
    have lt : index < dev.entriesPerBlock * dev.entriesPerBlock := mem_range.mp mem
    rw [route, if_neg (by omega), if_neg (by omega), if_pos (by omega), Nat.add_sub_cancel_left, Nat.add_sub_cancel_left]
  have triple : (range (dev.entriesPerBlock * (dev.entriesPerBlock * dev.entriesPerBlock))).map (fun index =>
      dev.blockAt iBlock (route dev.entriesPerBlock (12 + (dev.entriesPerBlock + (dev.entriesPerBlock * dev.entriesPerBlock + index))))) =
        dev.leaves 3 (dev.blockAt iBlock [14]) := by
    rw [leaves_three dev iBlock (root 14)]
    refine map_congr_left fun index _ => ?_
    rw [route, if_neg (by omega), if_neg (by omega), if_neg (by omega), Nat.add_sub_cancel_left, Nat.add_sub_cancel_left,
      Nat.add_sub_cancel_left]
  rw [total, range_add, range_add, range_add]
  simp only [map_append, map_map, Function.comp_def, filter_append, direct, single, double, triple]
  unfold Device.dataBlocks
  simp only [flatMap_cons, flatMap_nil, append_nil]
  rw [under 1 (by decide) (by decide), under 2 (by decide) (by decide), under 3 (by decide) (by decide), filter_map]
  rfl

theorem namesIn_eq {blockNums : List Nat} (records : List.Forall₂ (fun blockNum records =>
      ∃ data, dev.readBlock blockNum = some data ∧ Records data 0 records dev.blockSize) blockNums blocks) :
    dev.namesIn blockNums = (blocks.flatten.filter DirRecord.used).map DirRecord.name := by
  induction records with
  | nil => rfl
  | @cons blockNum records blockNums blocks block _ ih =>
    obtain ⟨data, read, chain⟩ := block
    rw [Device.namesIn, read]
    dsimp only
    rw [chain.blockNames_eq (Nat.le_add_left ..), ih, flatten_cons, filter_append, map_append]

theorem Device.Directory.names_eq (dir : dev.Directory iBlock blocks) :
    dev.names iBlock = (blocks.flatten.filter DirRecord.live).map DirRecord.name := by
  unfold Device.names
  rw [dataBlocks_eq dir.pointers, namesIn_eq dir.records]
  congr 1
  refine filter_congr fun record mem => ?_
  obtain ⟨records, inBlocks, inRecords⟩ := mem_flatten.mp mem
  cases live : record.live with
  | false =>
    unfold DirRecord.live at live
    rw [DirRecord.used, live, Bool.false_and]
  | true =>
    have named := dir.named records inBlocks record inRecords live
    unfold DirRecord.live at live
    rw [DirRecord.used, live, Bool.true_and]
    simpa using named

theorem terminated_length (names : List (List UInt8)) : (terminated names).length = (names.map nameCost).sum := by
  unfold terminated
  rw [length_flatMap]
  refine congrArg List.sum (map_congr_left fun name _ => ?_)
  rw [length_append]
  rfl

theorem calls_complete (large : ∀ size ∈ sizes, 256 ≤ size) (hin : position ≤ (dev.names iBlock).length)
    (ended : (dev.calls iBlock position sizes).getLast? = some []) :
    (dev.calls iBlock position sizes).flatten = terminated ((dev.names iBlock).drop position) ∧
      List.Forall₂ (fun size out => out.length ≤ size) sizes (dev.calls iBlock position sizes) := by
  induction sizes generalizing position with
  | nil => exact nomatch ended
  | cons size sizes ih =>
    have room := large size (.head _)
    have call := @readDir_eq dev iBlock position size (by omega) hin
    have ht : batch (dev.names iBlock) position size <+: (dev.names iBlock).drop position := prefixed_fitting nameCost size _
    obtain ⟨rest, split⟩ := ht
    have cnt := congrArg List.length split
    rw [length_append, length_drop] at cnt
    have lt : (terminated (batch (dev.names iBlock) position size)).length ≤ size := by
      rw [terminated_length]
      exact cost_fitting_le nameCost size _
    rw [Device.calls, call] at ended ⊢
    cases sizes with
    | nil =>
      have empty : terminated (batch (dev.names iBlock) position size) = [] := by simpa [Device.calls] using ended
      have none : batch (dev.names iBlock) position size = [] := by
        cases shown : batch (dev.names iBlock) position size with
        | nil => rfl
        | cons name names => simp [shown, terminated] at empty
      have finished : (dev.names iBlock).drop position = [] := by
        refine fitting_eq_nil none fun name mem => ?_
        have short := names_short iBlock name (mem_of_mem_drop mem)
        unfold nameCost
        omega
      rw [finished, Device.calls, empty]
      exact ⟨rfl, .cons (Nat.zero_le _) .nil⟩
    | cons next sizes =>
      have onward := ih (fun other mem => large other (.tail _ mem))
        (show position + (batch (dev.names iBlock) position size).length ≤ _ by omega)
        (by rwa [Device.calls, getLast?_cons_cons, ← Device.calls] at ended)
      have behind : (dev.names iBlock).drop (position + (batch (dev.names iBlock) position size).length) = rest := by
        rw [← drop_drop, ← split, drop_left]
      rw [behind] at onward
      rw [flatten_cons, onward.1, ← split]
      exact ⟨(flatMap_append ..).symm, .cons lt onward.2⟩

/-- Calls until one returns nothing list every entry once and in order. -/
theorem listing_complete (directory : dev.Directory iBlock blocks) (large : ∀ size ∈ sizes, 256 ≤ size)
    (ended : (dev.calls iBlock 0 sizes).getLast? = some []) :
    (dev.calls iBlock 0 sizes).flatten = terminated ((blocks.flatten.filter DirRecord.live).map DirRecord.name) ∧
      List.Forall₂ (fun size out => out.length ≤ size) sizes (dev.calls iBlock 0 sizes) := by
  have complete := calls_complete large (Nat.zero_le _) ended
  rwa [drop_zero, directory.names_eq] at complete

theorem Records.of_eq {data : Bytes} {offset stop : Nat} {record : DirRecord} {records : List DirRecord}
    (eq : recordAt data offset = record) (fits : record.Fits) (rest : Records data (offset + record.recLen) records stop) :
    Records data offset (record :: records) stop := by
  subst eq
  exact .cons fits rest

def longA : List UInt8 := replicate 200 97

def longB : List UInt8 := replicate 200 98

/-- A directory of two blocks, with a long name in the first and a long and a short one in the second. -/
def threeNames : Device := ⟨1024, fun blockNum => some fun i =>
  (if blockNum = 5 then [12, 0, 0, 0, 0, 4, 200, 1] ++ longA
    else [13, 0, 0, 0, 208, 0, 200, 1] ++ longB ++ [14, 0, 0, 0, 48, 3, 1, 1, 99]).getD i 0⟩

def twoBlocks (i : Nat) : Nat := if i < 2 then 5 + i else 0

theorem threeNames_directory :
    threeNames.Directory twoBlocks [[⟨12, 1024, longA⟩], [⟨13, 208, longB⟩, ⟨14, 816, [99]⟩]] := by
  have ptrs : ∀ depth, 1 ≤ depth → depth ≤ 3 → twoBlocks (11 + depth) ≠ 0 → threeNames.Readable depth (twoBlocks (11 + depth)) := by
    intro depth _ _ there
    exact absurd (if_neg (by omega)) there
  have blocks : threeNames.dataBlocks twoBlocks = [5, 6] := by decide
  refine ⟨ptrs, ?_, by decide⟩
  rw [← dataBlocks_eq ptrs, blocks]
  refine .cons ⟨_, rfl, ?_⟩ (.cons ⟨_, rfl, ?_⟩ .nil)
  · exact .of_eq (by decide +kernel) ⟨by decide +kernel, by decide⟩ .nil
  · exact .of_eq (by decide +kernel) ⟨by decide +kernel, by decide⟩ (.of_eq (by decide +kernel) ⟨by decide, by decide⟩ .nil)

/-- The first call has no room for the second name, and the next one goes on there. -/
theorem listing_complete_threeNames : threeNames.calls twoBlocks 0 [256, 256, 300] = [terminated [longA], terminated [longB, [99]], []] ∧
    (threeNames.calls twoBlocks 0 [256, 256, 300]).flatten = terminated [longA, longB, [99]] :=
  ⟨by decide +kernel, (listing_complete threeNames_directory (by decide) (by decide +kernel)).1⟩

end RosKernel.Ext2
