import RosKernel.Library.Radix
import RosKernel.Ext2.Truncate
import RosKernel.Ext2.Bitmaps

/-! The tree of an inode's blocks.

The inode is the root, and its 15 slots are the first of four levels. A path is kept with its last
slot first, so a block of the file has a path that ends with its slot in the inode.
-/

set_option autoImplicit false

namespace RosKernel.Ext2

open Library List

/-- The node that an entry names. -/
def named (entry : Nat) : Option (Option Nat) := if entry = 0 then none else some (some entry)

/-- A path of slots that exist: 15 in the inode, and `entries` in each block of at most three levels. -/
def Within (entries : Nat) (path : List Nat) : Prop :=
  path = [] ∨ ∃ slots root, path = slots ++ [root] ∧ root < 15 ∧ slots.length ≤ root - 11 ∧ ∀ slot ∈ slots, slot < entries

/-- A path to a data block. -/
def Leaf (entries : Nat) (path : List Nat) : Prop :=
  ∃ slots root, path = slots ++ [root] ∧ root < 15 ∧ slots.length = root - 11 ∧ ∀ slot ∈ slots, slot < entries

def route (entries index : Nat) : List Nat :=
  if index < 12 then [index]
  else if index - 12 < entries then [index - 12, 12]
  else if index - 12 - entries < entries * entries then
    [(index - 12 - entries) % entries, (index - 12 - entries) / entries, 13]
  else
    let rest := index - 12 - entries - entries * entries
    [rest % (entries * entries) % entries, rest % (entries * entries) / entries, rest / (entries * entries), 14]

/-- The file block of a path. -/
def fileBlockOf (entries : Nat) : List Nat → Nat
  | [slot] => slot
  | [slot, _] => 12 + slot
  | [slot, up, _] => 12 + entries + (up * entries + slot)
  | [slot, up, top, _] => 12 + entries + entries * entries + (top * (entries * entries) + (up * entries + slot))
  | _ => 0

def fileBlocks (entries : Nat) : Nat := 12 + entries + entries ^ 2 + entries ^ 3

namespace EXT2FileSystem

section

variable (fs : EXT2FileSystem) (inode : Inode)
include fs inode

def cells : Option Nat → Nat → Nat
  | none => inode.iBlock
  | some blockNum => fs.words blockNum

def reach (path : List Nat) : Option (Option Nat) := walk named (fs.cells inode) none path

/-- The block at the end of a path, zero without one. -/
def blockAt (path : List Nat) : Nat := (fs.reach inode path).join.getD 0

/-- No block is in the tree twice. -/
def WellFormed : Prop :=
  Unshared (Within fs.entriesPerBlock) named (fs.cells inode) none

end

end EXT2FileSystem

open EXT2FileSystem

section

variable {entries : Nat} {path : List Nat}

theorem within_closed (slot : Nat) (path : List Nat) (hin : Within entries (slot :: path)) : Within entries path := by
  rcases hin with empty | ⟨slots, root, split, known, short, lt⟩
  · exact nomatch empty
  · cases slots with
    | nil =>
      have eq : path = [] := (cons.inj split).2
      exact .inl eq
    | cons first slots =>
      rw [length_cons] at short
      exact .inr ⟨slots, root, (cons.inj split).2, known, by omega,
        fun slot mem => lt slot (.tail _ mem)⟩

theorem within_suffix {front : List Nat} (onPath : front <:+ path) (hin : Within entries path) : Within entries front := by
  obtain ⟨more, rfl⟩ := onPath
  induction more with
  | nil => exact hin
  | cons slot more ih => exact ih (within_closed slot _ hin)

theorem Leaf.within (leaf : Leaf entries path) : Within entries path := by
  obtain ⟨slots, root, split, known, long, lt⟩ := leaf
  exact .inr ⟨slots, root, split, known, long.le, lt⟩

theorem Leaf.eq_of_suffix {target : List Nat} (leaf : Leaf entries path) (other : Leaf entries target)
    (onPath : path <:+ target) : path = target := by
  obtain ⟨slots, root, rfl, _, long, _⟩ := leaf
  obtain ⟨slots', root', rfl, _, long', _⟩ := other
  obtain ⟨more, split⟩ := onPath
  rw [← append_assoc] at split
  obtain ⟨front, last⟩ := append_inj' split rfl
  have eq : root = root' := (cons.inj last).1
  have lengths := congrArg List.length front
  rw [length_append, long, long', eq] at lengths
  have none : more = [] := length_eq_zero_iff.mp (by omega)
  rw [none, nil_append] at front
  rw [front, eq]

theorem below_product {a b index : Nat} (hin : index < a * b) : index % b < b ∧ index / b < a := by
  have pos : 0 < b := by
    by_contra none
    rw [Nat.eq_zero_of_not_pos none, Nat.mul_zero] at hin
    omega
  exact ⟨Nat.mod_lt _ pos, Nat.div_lt_of_lt_mul (by rwa [Nat.mul_comm])⟩

theorem route_leaf {index : Nat} (hin : index < fileBlocks entries) : Leaf entries (route entries index) := by
  simp only [fileBlocks, Nat.pow_succ, Nat.pow_zero, Nat.one_mul] at hin
  unfold route
  split
  case isTrue direct => exact ⟨[], index, rfl, by omega, by rw [length_nil]; omega, fun _ mem => nomatch mem⟩
  split
  case isTrue single => exact ⟨[index - 12], 12, rfl, by decide, rfl, forall_mem_singleton.mpr single⟩
  split
  case isTrue double =>
    obtain ⟨last, first⟩ := below_product double
    exact ⟨[_, _], 13, rfl, by decide, rfl,
      forall_mem_cons.mpr ⟨last, forall_mem_singleton.mpr first⟩⟩
  case isFalse =>
    have triple : index - 12 - entries - entries * entries < entries * (entries * entries) := by
      rw [Nat.mul_comm entries (entries * entries)]
      omega
    obtain ⟨rest, first⟩ := below_product triple
    obtain ⟨last, snd⟩ := below_product rest
    exact ⟨[_, _, _], 14, rfl, by decide, rfl,
      forall_mem_cons.mpr ⟨last, forall_mem_cons.mpr ⟨snd, forall_mem_singleton.mpr first⟩⟩⟩

theorem route_ne_nil (entries index : Nat) : route entries index ≠ [] := by
  unfold route
  split
  · exact cons_ne_nil _ _
  split
  · exact cons_ne_nil _ _
  split <;> exact cons_ne_nil _ _

theorem fileBlockOf_route (entries index : Nat) : fileBlockOf entries (route entries index) = index := by
  unfold route
  split
  case isTrue => rfl
  split
  case isTrue => exact Nat.add_sub_of_le (by omega)
  split
  case isTrue =>
    rw [fileBlockOf, Nat.div_add_mod']
    omega
  case isFalse =>
    rw [fileBlockOf, Nat.div_add_mod', Nat.div_add_mod']
    omega

theorem route_injective {index other : Nat} (eq : route entries index = route entries other) : index = other := by
  rw [← fileBlockOf_route entries index, eq, fileBlockOf_route]

end

section

variable {fs : EXT2FileSystem} {inode : Inode} {path : List Nat}

theorem join_named (entry : Nat) : (named entry).join.getD 0 = entry := by
  unfold named
  split
  case isTrue zero => exact zero.symm
  case isFalse => rfl

theorem reach_cons (fs : EXT2FileSystem) (inode : Inode) (slot : Nat) (path : List Nat) :
    fs.reach inode (slot :: path) = (fs.reach inode path).bind fun node => named (fs.cells inode node slot) := rfl

theorem blockAt_cons {node : Option Nat} (hr : fs.reach inode path = some node) (slot : Nat) :
    fs.blockAt inode (slot :: path) = fs.cells inode node slot := by
  unfold blockAt
  rw [reach_cons, hr]
  exact join_named _

theorem reach_eq_named (fs : EXT2FileSystem) (inode : Inode) (slot : Nat) (path : List Nat) :
    fs.reach inode (slot :: path) = named (fs.blockAt inode (slot :: path)) := by
  cases hr : fs.reach inode path with
  | none =>
    unfold blockAt
    rw [reach_cons, hr]
    rfl
  | some node => rw [blockAt_cons hr, reach_cons, hr, Option.bind_some]

theorem reach_iff {blockNum : Nat} (below : path ≠ []) (there : blockNum ≠ 0) :
    fs.reach inode path = some (some blockNum) ↔ fs.blockAt inode path = blockNum := by
  obtain ⟨slot, rest, rfl⟩ := exists_cons_of_ne_nil below
  rw [reach_eq_named]
  unfold named
  split
  case isTrue zero => exact ⟨fun eq => (nomatch eq), fun eq => absurd (eq.symm.trans zero) there⟩
  case isFalse => rw [Option.some_inj, Option.some_inj]

theorem reach_eq_none_iff (below : path ≠ []) : fs.reach inode path = none ↔ fs.blockAt inode path = 0 := by
  obtain ⟨slot, rest, rfl⟩ := exists_cons_of_ne_nil below
  rw [reach_eq_named]
  unfold named
  split
  case isTrue zero => exact ⟨fun _ => zero, fun _ => rfl⟩
  case isFalse away => exact ⟨fun eq => (nomatch eq), fun zero => absurd zero away⟩

theorem blockAt_of_suffix {path target : List Nat} (there : fs.blockAt inode target ≠ 0) (onPath : path <:+ target)
    (below : path ≠ []) : fs.blockAt inode path ≠ 0 := by
  obtain ⟨more, rfl⟩ := onPath
  induction more with
  | nil => exact there
  | cons slot more ih =>
    apply ih
    intro zero
    have miss := (reach_eq_none_iff (append_ne_nil_of_right_ne_nil more below)).mpr zero
    apply there
    unfold blockAt
    rw [cons_append, reach_cons, miss]
    rfl

theorem blockAt_root (fs : EXT2FileSystem) (inode : Inode) (root : Nat) : fs.blockAt inode [root] = inode.iBlock root :=
  @blockAt_cons fs inode [] none rfl root

theorem root_of_reach {slots : List Nat} {root : Nat} {node : Option Nat} (hr : fs.reach inode (slots ++ [root]) = some node) :
    inode.iBlock root ≠ 0 := by
  have below : slots ++ [root] ≠ [] := append_ne_nil_of_right_ne_nil slots (cons_ne_nil root [])
  have target : fs.blockAt inode (slots ++ [root]) ≠ 0 := by
    intro miss
    rw [(reach_eq_none_iff below).mpr miss] at hr
    cases hr
  rw [← blockAt_root fs]
  exact blockAt_of_suffix target (suffix_append slots [root]) (cons_ne_nil root [])

theorem reach_direct (direct : ∀ root, 12 ≤ root → inode.iBlock root = 0) {node : Option Nat}
    (within : Within fs.entriesPerBlock path) (hr : fs.reach inode path = some node) :
    (path = [] ∧ node = none) ∨ ∃ slot < 12, path = [slot] ∧ node = some (inode.iBlock slot) ∧ inode.iBlock slot ≠ 0 := by
  rcases within with rfl | ⟨slots, root, rfl, _, shallow, _⟩
  · exact .inl ⟨rfl, (Option.some.inj hr).symm⟩
  · have there := root_of_reach hr
    have near : root < 12 := by
      by_contra far
      exact there (direct root (by omega))
    obtain rfl : slots = [] := length_eq_zero_iff.mp (by omega)
    have h : fs.reach inode [root] = some (some (inode.iBlock root)) :=
      (reach_iff (cons_ne_nil root []) there).mpr (blockAt_root fs inode root)
    exact .inr ⟨root, near, rfl, Option.some.inj (hr.symm.trans h), there⟩

theorem readWords_succeeds (sound : fs.faults = []) {blockNum : Nat} (there : blockNum ≠ 0) :
    fs.readWords blockNum = (some (fs.words blockNum), fs) := by
  unfold readWords
  rw [blockRequest_succeeds there sound]
  rfl

theorem writeWords_succeeds (sound : fs.faults = []) {blockNum : Nat} (nz : blockNum ≠ 0) (data : Nat → Nat) :
    fs.writeWords blockNum data = (true, fs.setWords blockNum data) := by
  unfold writeWords
  rw [blockRequest_succeeds nz sound]
  rfl

theorem follow_eq (sound : fs.faults = []) (slots : List Nat) (below : path ≠ []) :
    follow slots (fs.blockAt inode path) fs = (fs.blockAt inode (slots.reverse ++ path), fs) := by
  induction slots generalizing path with
  | nil => rfl
  | cons slot slots ih =>
    rw [reverse_cons, append_assoc, singleton_append, ← ih (cons_ne_nil slot path)]
    rw [follow]
    split
    case isTrue zero =>
      have miss : fs.blockAt inode (slot :: path) = 0 := by
        unfold blockAt
        rw [reach_cons, (reach_eq_none_iff below).mpr zero]
        rfl
      rw [miss]
      cases slots with
      | nil => rfl
      | cons next slots => rw [follow, if_pos rfl]
    case isFalse there =>
      rw [readWords_succeeds sound there, blockAt_cons ((reach_iff below there).mpr rfl)]
      rfl

theorem follow_root (sound : fs.faults = []) (slots : List Nat) (root : Nat) :
    follow slots (inode.iBlock root) fs = (fs.blockAt inode (slots.reverse ++ [root]), fs) := by
  rw [← blockAt_root fs]
  exact follow_eq sound slots (cons_ne_nil _ _)

theorem entries2_narrow {entries index : Nat} (narrow : index < 2 ^ 32) (large : ¬index < entries * entries) :
    entries * entries % 2 ^ 32 = entries * entries ∧ entries * entries * entries % 2 ^ 64 = entries * entries * entries := by
  have few : entries ≤ 2 ^ 16 := by
    by_contra many
    have square : (2 ^ 16 + 1) * (2 ^ 16 + 1) ≤ entries * entries := Nat.mul_le_mul (by omega) (by omega)
    omega
  have cube : entries * entries * entries ≤ 2 ^ 32 * 2 ^ 16 := Nat.mul_le_mul (by omega) few
  exact ⟨Nat.mod_eq_of_lt (by omega), Nat.mod_eq_of_lt (by omega)⟩

theorem getBlockNumForFileOffset_eq (sound : fs.faults = []) {index : Nat} (narrow : index < 2 ^ 32) :
    fs.getBlockNumForFileOffset inode index =
      (if index < fileBlocks fs.entriesPerBlock then fs.blockAt inode (route fs.entriesPerBlock index) else 0, fs) := by
  have bound : fileBlocks fs.entriesPerBlock = 12 + fs.entriesPerBlock + fs.entriesPerBlock * fs.entriesPerBlock +
      fs.entriesPerBlock * fs.entriesPerBlock * fs.entriesPerBlock := by
    simp only [fileBlocks, Nat.pow_succ, Nat.pow_zero, Nat.one_mul]
  rw [bound]
  unfold getBlockNumForFileOffset route
  by_cases direct : index < 12
  · rw [if_pos direct, if_pos (by omega), if_pos direct, blockAt_root]
  rw [if_neg direct, if_neg direct]
  by_cases single : index - 12 < fs.entriesPerBlock
  · rw [if_pos single, if_pos (by omega), if_pos single, follow_root sound]
    rfl
  rw [if_neg single, if_neg single]
  by_cases double : index - 12 - fs.entriesPerBlock < fs.entriesPerBlock * fs.entriesPerBlock
  · rw [if_pos double, if_pos (by omega), if_pos double, follow_root sound]
    rfl
  rw [if_neg double, if_neg double]
  obtain ⟨square, cube⟩ := entries2_narrow (by omega) double
  rw [square, cube]
  by_cases triple : index - 12 - fs.entriesPerBlock - fs.entriesPerBlock * fs.entriesPerBlock <
      fs.entriesPerBlock * fs.entriesPerBlock * fs.entriesPerBlock
  · rw [if_pos triple, if_pos (by omega), follow_root sound]
    rfl
  · rw [if_neg triple, if_neg (by omega)]

end

end RosKernel.Ext2
