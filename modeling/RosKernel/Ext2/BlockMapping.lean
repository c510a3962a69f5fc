import RosKernel.Ext2.BlockTree

/-! `GetOrAllocateBlockForFileOffset` and `GetBlockNumForFileOffset` agree.

A call that is answered with fresh blocks plants them on the way to the file block it was asked for,
and nowhere else in the tree.
-/

set_option autoImplicit false

namespace RosKernel.Ext2

open Library EXT2FileSystem List
open Function (update update_of_ne update_self)

/-- A call whose requests all succeed, and what `AllocateBlock` answered in it. -/
structure Ran (fs after : EXT2FileSystem) (answers : List Nat) : Prop where
  sound : after.faults = []
  size : after.blockSize = fs.blockSize
  taken : after.taken = fs.taken ++ answers

/-- The blocks are none of the tree, and no two are the same. -/
structure Fresh (fs : EXT2FileSystem) (inode : Inode) (blocks : List Nat) : Prop where
  distinct : blocks.Nodup
  nonzero : ∀ blockNum ∈ blocks, blockNum ≠ 0
  away : ∀ blockNum ∈ blocks, ∀ path, Within fs.entriesPerBlock path → fs.reach inode path ≠ some (some blockNum)

/-- The tree has a block at the end of a path, and is otherwise as before. -/
structure Provides (fs after : EXT2FileSystem) (inode inode' : Inode) (answers target : List Nat) (blockNum : Nat) : Prop where
  nonzero : blockNum ≠ 0
  there : after.blockAt inode' target = blockNum
  wellFormed : after.WellFormed inode'
  grows : GrowsTo (Within fs.entriesPerBlock) named (fs.cells inode) (after.cells inode') none target (answers.map some)
  zeroed : fs.blockAt inode target = 0 → ∀ slot, after.words blockNum slot = 0

theorem Ran.refl {fs : EXT2FileSystem} (sound : fs.faults = []) : Ran fs fs [] := ⟨sound, rfl, (append_nil _).symm⟩

theorem Ran.trans {fs mid after : EXT2FileSystem} {first snd : List Nat} (left : Ran fs mid first)
    (right : Ran mid after snd) : Ran fs after (first ++ snd) :=
  ⟨right.sound, right.size.trans left.size, by rw [right.taken, left.taken, append_assoc]⟩

theorem Ran.entries {fs after : EXT2FileSystem} {ans : List Nat} (ran : Ran fs after ans) :
    after.entriesPerBlock = fs.entriesPerBlock := congrArg (· / 4) ran.size

theorem named_eq {blockNum : Nat} (nz : blockNum ≠ 0) : named blockNum = some (some blockNum) := if_neg nz

theorem named_eq_none {entry : Nat} : named entry = none ↔ entry = 0 := by
  unfold named
  split
  case isTrue zero => exact iff_of_true rfl zero
  case isFalse away => exact iff_of_false (fun none => nomatch none) away

section

variable {fs after : EXT2FileSystem} {inode inode' : Inode}

theorem allocateBlock_ran (sound : fs.faults = []) : Ran fs fs.allocateBlock.2 [fs.allocateBlock.1] := by
  obtain ⟨fewer, _, size, ht⟩ := allocateBlock_frame fs
  rw [sound] at fewer
  exact ⟨suffix_nil.mp fewer, size, ht⟩

theorem zeroBlock_succeeds (fs : EXT2FileSystem) (sound : fs.faults = []) {blockNum : Nat} (nz : blockNum ≠ 0) :
    fs.zeroBlock blockNum = (true, fs.setWords blockNum fun _ => 0) := by
  unfold zeroBlock
  rw [request_succeeds sound]
  dsimp only
  rw [if_pos rfl, writeWords_succeeds sound nz]

theorem Provides.here (wellFormed : fs.WellFormed inode) {target : List Nat} (there : fs.blockAt inode target ≠ 0) :
    Provides fs fs inode inode [] target (fs.blockAt inode target) where
  nonzero := there
  there := rfl
  wellFormed := wellFormed
  grows := .refl target
  zeroed none := absurd none there

theorem Provides.planted (wellFormed : fs.WellFormed inode) {slot blockNum : Nat} {path : List Nat} {node : Option Nat}
    (fresh : Fresh fs inode [blockNum]) (same : after.entriesPerBlock = fs.entriesPerBlock)
    (inside : Within fs.entriesPerBlock (slot :: path)) (reached : fs.reach inode path = some node)
    (plants : Plants named (fs.cells inode) (after.cells inode') node (some blockNum) slot) :
    Provides fs after inode inode' [blockNum] (slot :: path) blockNum := by
  have nonzero := fresh.nonzero blockNum (.head _)
  have away := fresh.away blockNum (.head _)
  have unshared := plants.unshared within_closed wellFormed away inside reached
  have there := plants.walk_eq within_closed wellFormed away inside reached inside
  rw [if_pos rfl] at there
  constructor
  case nonzero => exact nonzero
  case there => exact (reach_iff (cons_ne_nil _ _) nonzero).mp there
  case wellFormed =>
    unfold WellFormed
    rw [same]
    exact unshared
  case grows => exact plants.growsTo within_closed wellFormed away inside reached
  case zeroed => exact fun _ slot => named_eq_none.mp (plants.barren slot)

section

variable {first second : List Nat} (fresh : Fresh fs inode (first ++ second))
include fresh

theorem Fresh.later {middle : EXT2FileSystem} {path : List Nat} {child : Nat} (ran : Ran fs middle first)
    (provides : Provides fs middle inode inode' first path child) : Fresh middle inode' second where
  distinct := (nodup_append.mp fresh.distinct).2.1
  nonzero blockNum mem := fresh.nonzero blockNum (mem_append_right _ mem)
  away blockNum mem path' inside reached := by
    rw [ran.entries] at inside
    rcases provides.grows.reached inside reached with old | new
    · exact fresh.away blockNum (mem_append_right _ mem) path' inside old
    · obtain ⟨earlier, earlierMember, same⟩ := mem_map.mp new
      rw [Option.some.inj same] at earlierMember
      exact (nodup_append.mp fresh.distinct).2.2 blockNum earlierMember blockNum mem rfl

theorem Fresh.earlier : Fresh fs inode first where
  distinct := (nodup_append.mp fresh.distinct).1
  nonzero blockNum mem := fresh.nonzero blockNum (mem_append_left _ mem)
  away blockNum mem := fresh.away blockNum (mem_append_left _ mem)

end

theorem Provides.trans {middle : EXT2FileSystem} {inode'' : Inode} {first second path target : List Nat}
    {blockNum child : Nat} (provides : Provides fs middle inode inode' first path child) (ran : Ran fs middle first)
    (inside : Within fs.entriesPerBlock target) (onPath : path <:+ target) (before : path ≠ target)
    (next : Provides middle after inode' inode'' second target blockNum) :
    Provides fs after inode inode'' (first ++ second) target blockNum where
  nonzero := next.nonzero
  there := next.there
  wellFormed := next.wellFormed
  grows := by
    have further := next.grows
    rw [ran.entries] at further
    rw [map_append]
    exact provides.grows.trans onPath further
  zeroed none := by
    apply next.zeroed
    rcases provides.grows target inside with same | ⟨_, back, _⟩
    · exact (congrArg (fun reached : Option (Option Nat) => reached.join.getD 0) same).trans none
    · exact absurd (onPath.eq_of_length_le back.length_le) before

theorem plants_slot {slot blockNum new : Nat} (words : after.words = fs.words) (missing : fs.words blockNum slot = 0)
    (nonzero : new ≠ 0) (apart : blockNum ≠ new) :
    Plants named (fs.cells inode) (((after.setWords blockNum (update (fs.words blockNum) slot new)).setWords new
      fun _ => 0).cells inode) (some blockNum) (some new) slot where
  empty := named_eq_none.mpr missing
  set := by
    change named (update (update after.words blockNum _) new _ blockNum slot) = _
    rw [update_of_ne apart, update_self, update_self]
    exact named_eq nonzero
  barren other := by
    change named (update (update after.words blockNum _) new _ new other) = _
    rw [update_self]
    rfl
  same other position away elsewhere := by
    cases other with
    | none => rfl
    | some other =>
      change update (update after.words blockNum _) new _ other position = fs.words other position
      rw [update_of_ne fun same => away (congrArg some same), words]
      by_cases parent : other = blockNum
      · rw [parent, update_self, update_of_ne fun same => elsewhere ⟨congrArg some parent, same⟩]
      · rw [update_of_ne parent]

theorem ensureSlot_spec (sound : fs.faults = []) (inode : Inode) {slot blockNum : Nat} {path : List Nat} (below : path ≠ [])
    (hin : Within fs.entriesPerBlock (slot :: path)) (nz : blockNum ≠ 0) :
    ∃ ans, Ran fs (fs.ensureSlot blockNum slot).2 ans ∧
      (fs.WellFormed inode → fs.blockAt inode path = blockNum → Fresh fs inode ans →
        Provides fs (fs.ensureSlot blockNum slot).2 inode inode ans (slot :: path) (fs.ensureSlot blockNum slot).1.1) := by
  unfold ensureSlot
  rw [readWords_succeeds sound nz]
  dsimp only
  split
  case isTrue old =>
    refine ⟨[], .refl sound, fun wellFormed there _ => ?_⟩
    have content : fs.blockAt inode (slot :: path) = fs.words blockNum slot :=
      blockAt_cons ((reach_iff below nz).mpr there) slot
    rw [← content] at old ⊢
    exact .here wellFormed old
  case isFalse miss =>
    have ran := allocateBlock_ran sound
    have words := (allocateBlock_frame fs).2.1
    generalize fs.allocateBlock = answered at ran words
    obtain ⟨new, mid⟩ := answered
    dsimp only at ran words ⊢
    split
    case isTrue zero =>
      exact ⟨[new], ran, fun _ _ fresh => absurd zero (fresh.nonzero new (.head _))⟩
    case isFalse got =>
      rw [writeWords_succeeds ran.sound nz]
      dsimp only
      rw [if_neg (by decide), zeroBlock_succeeds (mid.setWords _ _) ran.sound got]
      refine ⟨[new], ⟨ran.sound, ran.size, ran.taken⟩, fun wellFormed there fresh => ?_⟩
      have hr := (reach_iff below nz).mpr there
      refine .planted wellFormed fresh (congrArg (· / 4) ran.size) hin hr ?_
      apply plants_slot words (not_ne_iff.mp miss) got
      intro eq
      exact fresh.away new (.head _) path (within_closed _ _ hin) (eq ▸ hr)

theorem plants_root {root new : Nat} (words : after.words = fs.words) (missing : inode.iBlock root = 0) (nonzero : new ≠ 0)
    (same : inode'.iBlock = update inode.iBlock root new) :
    Plants named (fs.cells inode) ((after.setWords new fun _ => 0).cells inode') none (some new) root where
  empty := named_eq_none.mpr missing
  set := by
    change named (inode'.iBlock root) = _
    rw [same, update_self]
    exact named_eq nonzero
  barren other := by
    change named (update after.words new _ new other) = _
    rw [update_self]
    rfl
  same other position away elsewhere := by
    cases other with
    | none =>
      change inode'.iBlock position = inode.iBlock position
      rw [same, update_of_ne fun here => elsewhere ⟨rfl, here⟩]
    | some other =>
      change update after.words new _ other position = fs.words other position
      rw [update_of_ne fun here => away (congrArg some here), words]

theorem provides_root (wellFormed : fs.WellFormed inode) {root new : Nat} (known : root < 15)
    (ran : Ran fs after [new]) (words : after.words = fs.words) (miss : inode.iBlock root = 0)
    (eq : inode'.iBlock = update inode.iBlock root new) (fresh : Fresh fs inode [new]) :
    Provides fs (after.setWords new fun _ => 0) inode inode' [new] [root] new :=
  .planted wellFormed fresh (congrArg (· / 4) ran.size)
    (.inr ⟨[], root, rfl, known, Nat.zero_le _, fun _ mem => nomatch mem⟩) rfl
    (plants_root words miss (fresh.nonzero new (.head _)) eq)

theorem ensureRoot_spec (sound : fs.faults = []) (inode : Inode) {root : Nat} (known : root < 15) :
    ∃ ans, Ran fs (fs.ensureRoot inode root).2.2 ans ∧
      ((fs.ensureRoot inode root).1 = true → (fs.ensureRoot inode root).2.1.iBlock root ≠ 0) ∧
      (fs.WellFormed inode → Fresh fs inode ans → (fs.ensureRoot inode root).1 = true ∧
        Provides fs (fs.ensureRoot inode root).2.2 inode (fs.ensureRoot inode root).2.1 ans [root]
          ((fs.ensureRoot inode root).2.1.iBlock root)) := by
  unfold ensureRoot
  split
  case isTrue old =>
    rw [← blockAt_root fs] at old ⊢
    exact ⟨[], .refl sound, fun _ => old, fun wellFormed _ => ⟨rfl, .here wellFormed old⟩⟩
  case isFalse miss =>
    have ran := allocateBlock_ran sound
    have words := (allocateBlock_frame fs).2.1
    generalize fs.allocateBlock = answered at ran words
    obtain ⟨new, mid⟩ := answered
    dsimp only at ran words ⊢
    split
    case isTrue zero =>
      exact ⟨[new], ran, fun none => (nomatch none),
        fun _ fresh => absurd zero (fresh.nonzero new (.head _))⟩
    case isFalse got =>
      rw [zeroBlock_succeeds mid ran.sound got]
      have slot : (inode.setBlock root new).iBlock root = new := by simp [Inode.setBlock]
      rw [slot]
      refine ⟨[new], ⟨ran.sound, ran.size, ran.taken⟩, fun _ => got, fun wellFormed fresh => ⟨rfl, ?_⟩⟩
      exact provides_root wellFormed known ran words (not_ne_iff.mp miss) rfl fresh

theorem descend_spec {slots : List Nat} (some : slots ≠ []) (sound : fs.faults = []) (inode : Inode) {blockNum : Nat}
    {path : List Nat} (below : path ≠ []) (hin : Within fs.entriesPerBlock (slots.reverse ++ path)) (nz : blockNum ≠ 0) :
    ∃ ans, Ran fs (descend slots blockNum fs).2 ans ∧
      (fs.WellFormed inode → fs.blockAt inode path = blockNum → Fresh fs inode ans →
        Provides fs (descend slots blockNum fs).2 inode inode ans (slots.reverse ++ path) (descend slots blockNum fs).1.1) := by
  induction slots generalizing fs blockNum path with
  | nil => exact absurd rfl some
  | cons slot slots ih =>
    have whole : (slot :: slots).reverse ++ path = slots.reverse ++ (slot :: path) := by
      rw [reverse_cons, append_assoc, singleton_append]
    rw [whole] at hin ⊢
    have onPath : slot :: path <:+ slots.reverse ++ slot :: path := suffix_append _ _
    obtain ⟨first, ran, provides⟩ := ensureSlot_spec sound inode below (within_suffix onPath hin) nz
    cases slots with
    | nil => exact ⟨first, ran, provides⟩
    | cons next slots =>
      rw [descend]
      generalize fs.ensureSlot blockNum slot = ensured at ran provides
      obtain ⟨⟨child, isNew⟩, mid⟩ := ensured
      dsimp only at ran provides ⊢
      split
      case isTrue zero =>
        exact ⟨first, ran, fun wellFormed there fresh => absurd zero (provides wellFormed there fresh).nonzero⟩
      case isFalse got =>
        obtain ⟨snd, further, descends⟩ := ih (cons_ne_nil _ _) ran.sound (cons_ne_nil slot path)
          (by rw [ran.entries]; exact hin) got
        refine ⟨first ++ snd, ran.trans further, fun wellFormed there fresh => ?_⟩
        have step := provides wellFormed there fresh.earlier
        have rest := descends step.wellFormed step.there (fresh.later ran step)
        apply step.trans ran hin onPath _ rest
        intro eq
        have lengths := congrArg List.length eq
        simp only [length_append, length_reverse, length_cons] at lengths
        omega

theorem cells_congr (eq : inode'.iBlock = inode.iBlock) : fs.cells inode' = fs.cells inode := by
  funext node
  cases node with
  | none => exact eq
  | some => rfl

theorem Provides.congr {inode'' : Inode} {answers target : List Nat} {blockNum : Nat} (same : inode''.iBlock = inode'.iBlock)
    (provides : Provides fs after inode inode' answers target blockNum) :
    Provides fs after inode inode'' answers target blockNum where
  nonzero := provides.nonzero
  there := by
    have there := provides.there
    unfold blockAt reach at there ⊢
    rwa [cells_congr same]
  wellFormed := by
    have wellFormed := provides.wellFormed
    unfold WellFormed at wellFormed ⊢
    rwa [cells_congr same]
  grows := by
    rw [cells_congr same]
    exact provides.grows
  zeroed := provides.zeroed

theorem allocateUnder_spec (sound : fs.faults = []) (inode : Inode) {root : Nat} {slots : List Nat} (some : slots ≠ [])
    (hin : Within fs.entriesPerBlock (slots.reverse ++ [root])) :
    ∃ ans, Ran fs (fs.allocateUnder inode root slots).2.2 ans ∧
      (fs.WellFormed inode → Fresh fs inode ans →
        Provides fs (fs.allocateUnder inode root slots).2.2 inode (fs.allocateUnder inode root slots).2.1 ans
          (slots.reverse ++ [root]) (fs.allocateUnder inode root slots).1) := by
  have known : root < 15 := by
    rcases hin with empty | ⟨front, last, split, known, _⟩
    · exact absurd empty (append_ne_nil_of_right_ne_nil _ (cons_ne_nil _ _))
    · obtain ⟨_, eq⟩ := append_inj' split rfl
      exact (cons.inj eq).1 ▸ known
  obtain ⟨first, ran, there, provides⟩ := ensureRoot_spec sound inode known
  unfold allocateUnder
  generalize fs.ensureRoot inode root = ensured at ran there provides
  obtain ⟨got, inode1, mid⟩ := ensured
  dsimp only at ran there provides ⊢
  split
  case isFalse none => exact ⟨first, ran, fun wellFormed fresh => absurd (provides wellFormed fresh).1 none⟩
  case isTrue granted =>
    have nz := there granted
    obtain ⟨snd, further, descends⟩ := descend_spec some ran.sound inode1 (cons_ne_nil root [])
      (by rw [ran.entries]; exact hin) nz
    generalize descend slots (inode1.iBlock root) mid = descended at further descends
    obtain ⟨⟨target, isNew⟩, after⟩ := descended
    refine ⟨first ++ snd, ran.trans further, fun wellFormed fresh => ?_⟩
    have step := (provides wellFormed fresh.earlier).2
    have rest := descends step.wellFormed (blockAt_root mid inode1 root) (fresh.later ran step)
    have whole := step.trans ran hin (suffix_append _ _) (fun eq => some (by simpa using eq)) rest
    apply whole.congr
    split <;> rfl

theorem getOrAllocate_spec (sound : fs.faults = []) (inode : Inode) {index : Nat} (narrow : index < 2 ^ 32)
    (hin : index < fileBlocks fs.entriesPerBlock) :
    ∃ ans, Ran fs (fs.getOrAllocateBlockForFileOffset inode index).2.2 ans ∧
      (fs.WellFormed inode → Fresh fs inode ans →
        Provides fs (fs.getOrAllocateBlockForFileOffset inode index).2.2 inode
          (fs.getOrAllocateBlockForFileOffset inode index).2.1 ans (route fs.entriesPerBlock index)
          (fs.getOrAllocateBlockForFileOffset inode index).1) := by
  have within := (route_leaf hin).within
  simp only [fileBlocks, Nat.pow_succ, Nat.pow_zero, Nat.one_mul] at hin
  unfold getOrAllocateBlockForFileOffset
  unfold route at within ⊢
  dsimp only at within ⊢
  by_cases direct : index < 12
  · rw [if_pos direct, if_pos direct]
    split
    case isTrue old =>
      rw [← blockAt_root fs] at old ⊢
      exact ⟨[], .refl sound, fun wellFormed _ => .here wellFormed old⟩
    case isFalse miss =>
      have ran := allocateBlock_ran sound
      have words := (allocateBlock_frame fs).2.1
      generalize fs.allocateBlock = answered at ran words
      obtain ⟨new, mid⟩ := answered
      split
      case isTrue zero => exact ⟨[new], ran, fun _ fresh => absurd zero (fresh.nonzero new (.head _))⟩
      case isFalse got =>
        rw [zeroBlock_succeeds mid ran.sound got]
        refine ⟨[new], ⟨ran.sound, ran.size, ran.taken⟩, fun wellFormed fresh => ?_⟩
        exact provides_root wellFormed (by omega) ran words (not_ne_iff.mp miss) rfl fresh
  rw [if_neg direct] at within ⊢
  rw [if_neg direct]
  by_cases single : index - 12 < fs.entriesPerBlock
  · rw [if_pos single] at within ⊢
    rw [if_pos single]
    exact allocateUnder_spec sound inode (cons_ne_nil _ _) within
  rw [if_neg single] at within ⊢
  rw [if_neg single]
  by_cases double : index - 12 - fs.entriesPerBlock < fs.entriesPerBlock * fs.entriesPerBlock
  · rw [if_pos double] at within ⊢
    rw [if_pos double]
    exact allocateUnder_spec sound inode (cons_ne_nil _ _) within
  rw [if_neg double] at within ⊢
  rw [if_neg double]
  obtain ⟨square, cube⟩ := entries2_narrow (by omega) double
  rw [square, cube, if_pos (by omega)]
  exact allocateUnder_spec sound inode (cons_ne_nil _ _) within

section

variable (sound : fs.faults = [])
include sound

theorem ensureSlot_there {blockNum slot : Nat} (nz : blockNum ≠ 0) (there : fs.words blockNum slot ≠ 0) :
    fs.ensureSlot blockNum slot = ((fs.words blockNum slot, false), fs) := by
  unfold ensureSlot
  rw [readWords_succeeds sound nz]
  exact if_pos there

theorem descend_there {slots path : List Nat} (below : path ≠ []) (there : fs.blockAt inode (slots.reverse ++ path) ≠ 0) :
    descend slots (fs.blockAt inode path) fs = ((fs.blockAt inode (slots.reverse ++ path), false), fs) := by
  induction slots generalizing path with
  | nil => rfl
  | cons slot slots ih =>
    have whole : (slot :: slots).reverse ++ path = slots.reverse ++ (slot :: path) := by
      rw [reverse_cons, append_assoc, singleton_append]
    rw [whole] at there ⊢
    have nz := blockAt_of_suffix there ((suffix_cons slot path).trans (suffix_append _ _)) below
    have child := blockAt_of_suffix there (suffix_append slots.reverse (slot :: path)) (cons_ne_nil _ _)
    have content : fs.blockAt inode (slot :: path) = fs.words (fs.blockAt inode path) slot :=
      blockAt_cons ((reach_iff below nz).mpr rfl) slot
    have ensured := ensureSlot_there sound nz (content ▸ child)
    rw [← content] at ensured
    cases slots with
    | nil => exact ensured
    | cons next slots =>
      rw [descend, ensured]
      dsimp only
      rw [if_neg child]
      exact ih (cons_ne_nil _ _) there

theorem allocateUnder_there {root : Nat} {slots : List Nat} (there : fs.blockAt inode (slots.reverse ++ [root]) ≠ 0) :
    fs.allocateUnder inode root slots = (fs.blockAt inode (slots.reverse ++ [root]), inode, fs) := by
  have top := blockAt_of_suffix there (suffix_append _ _) (cons_ne_nil root [])
  have below := descend_there sound (cons_ne_nil root []) there
  rw [blockAt_root] at top below
  unfold allocateUnder ensureRoot
  rw [if_pos top]
  dsimp only
  rw [if_pos rfl, below]
  rfl

theorem getOrAllocate_there {index : Nat} (narrow : index < 2 ^ 32) (hin : index < fileBlocks fs.entriesPerBlock)
    (there : fs.blockAt inode (route fs.entriesPerBlock index) ≠ 0) :
    fs.getOrAllocateBlockForFileOffset inode index = (fs.blockAt inode (route fs.entriesPerBlock index), inode, fs) := by
  simp only [fileBlocks, Nat.pow_succ, Nat.pow_zero, Nat.one_mul] at hin
  unfold getOrAllocateBlockForFileOffset
  unfold route at there ⊢
  by_cases direct : index < 12
  · rw [if_pos direct, blockAt_root] at there
    rw [if_pos direct, if_pos direct, if_pos there, blockAt_root]
  rw [if_neg direct] at there ⊢
  rw [if_neg direct]
  by_cases single : index - 12 < fs.entriesPerBlock
  · rw [if_pos single] at there ⊢
    rw [if_pos single]
    exact allocateUnder_there sound there
  rw [if_neg single] at there ⊢
  rw [if_neg single]
  by_cases double : index - 12 - fs.entriesPerBlock < fs.entriesPerBlock * fs.entriesPerBlock
  · rw [if_pos double] at there ⊢
    rw [if_pos double]
    exact allocateUnder_there sound there
  rw [if_neg double] at there ⊢
  rw [if_neg double]
  obtain ⟨square, cube⟩ := entries2_narrow (by omega) double
  rw [square, cube, if_pos (by omega)]
  exact allocateUnder_there sound there

end

end

/-- What a call for a file block and the lookups before and after it have to do with each other. -/
structure Agrees (fs after : EXT2FileSystem) (inode inode' : Inode) (index blockNum : Nat) : Prop where
  nonzero : blockNum ≠ 0
  found : (after.getBlockNumForFileOffset inode' index).1 = blockNum
  others : ∀ other < 2 ^ 32, other ≠ index →
    (after.getBlockNumForFileOffset inode' other).1 = (fs.getBlockNumForFileOffset inode other).1
  zeros : (fs.getBlockNumForFileOffset inode index).1 = 0 → ∀ slot, after.words blockNum slot = 0
  again : after.getOrAllocateBlockForFileOffset inode' index = (blockNum, inode', after)
  apart : ∀ left < 2 ^ 32, ∀ right < 2 ^ 32, left ≠ right → (after.getBlockNumForFileOffset inode' left).1 ≠ 0 →
    (after.getBlockNumForFileOffset inode' left).1 ≠ (after.getBlockNumForFileOffset inode' right).1

theorem WellFormed.apart {fs : EXT2FileSystem} {inode : Inode} (wellFormed : fs.WellFormed inode) (sound : fs.faults = [])
    {left right : Nat} (leftNarrow : left < 2 ^ 32) (rightNarrow : right < 2 ^ 32) (ne : left ≠ right)
    (mapped : (fs.getBlockNumForFileOffset inode left).1 ≠ 0) :
    (fs.getBlockNumForFileOffset inode left).1 ≠ (fs.getBlockNumForFileOffset inode right).1 := by
  rw [getBlockNumForFileOffset_eq sound leftNarrow] at mapped ⊢
  rw [getBlockNumForFileOffset_eq sound rightNarrow]
  intro eq
  by_cases leftIn : left < fileBlocks fs.entriesPerBlock
  · rw [if_pos leftIn] at mapped eq
    by_cases rightIn : right < fileBlocks fs.entriesPerBlock
    · rw [if_pos rightIn] at eq
      have toLeft := (reach_iff (route_ne_nil _ _) mapped).mpr rfl
      have toRight := (reach_iff (route_ne_nil _ _) mapped).mpr eq.symm
      exact ne (route_injective (wellFormed _ _ _ (route_leaf leftIn).within (route_leaf rightIn).within toLeft toRight))
    · rw [if_neg rightIn] at eq
      exact mapped eq
  · rw [if_neg leftIn] at mapped
    exact mapped rfl

/-- With fresh answers from `AllocateBlock` and no failing request, allocation and lookup agree. -/
theorem getOrAllocate_agrees {fs : EXT2FileSystem} {inode : Inode} {index : Nat} (sound : fs.faults = [])
    (wellFormed : fs.WellFormed inode) (narrow : index < 2 ^ 32) (inside : index < fileBlocks fs.entriesPerBlock)
    (fresh : Fresh fs inode ((fs.getOrAllocateBlockForFileOffset inode index).2.2.taken.drop fs.taken.length)) :
    Agrees fs (fs.getOrAllocateBlockForFileOffset inode index).2.2 inode
      (fs.getOrAllocateBlockForFileOffset inode index).2.1 index (fs.getOrAllocateBlockForFileOffset inode index).1 := by
  obtain ⟨answers, ran, spec⟩ := getOrAllocate_spec sound inode narrow inside
  rw [ran.taken, drop_left] at fresh
  have provides := spec wellFormed fresh
  generalize fs.getOrAllocateBlockForFileOffset inode index = called at ran provides
  obtain ⟨blockNum, inode', after⟩ := called
  have lookup : ∀ other < 2 ^ 32, (after.getBlockNumForFileOffset inode' other).1 =
      if other < fileBlocks fs.entriesPerBlock then after.blockAt inode' (route fs.entriesPerBlock other) else 0 := by
    intro other small
    rw [getBlockNumForFileOffset_eq ran.sound small, ran.entries]
  have there := provides.there
  constructor
  case nonzero => exact provides.nonzero
  case found => rw [lookup index narrow, if_pos inside, there]
  case others =>
    intro other small different
    rw [lookup other small, getBlockNumForFileOffset_eq sound small]
    split
    case isFalse => rfl
    case isTrue otherIn =>
      rcases provides.grows _ (route_leaf otherIn).within with same | ⟨_, onPath, _⟩
      · exact congrArg (fun reached : Option (Option Nat) => reached.join.getD 0) same
      · exact absurd (route_injective ((route_leaf otherIn).eq_of_suffix (route_leaf inside) onPath)) different
  case zeros =>
    intro none
    rw [getBlockNumForFileOffset_eq sound narrow] at none
    rw [if_pos inside] at none
    exact provides.zeroed none
  case again =>
    rw [← ran.entries] at there inside
    have known := getOrAllocate_there ran.sound narrow inside (by rw [there]; exact provides.nonzero)
    rwa [there] at known
  case apart =>
    exact fun left leftNarrow right rightNarrow => WellFormed.apart provides.wellFormed ran.sound leftNarrow rightNarrow

/-- A file without blocks. -/
def emptyInode : Inode := ⟨0, 0, fun _ => 0⟩

def twoFree : EXT2FileSystem :=
  { oneGroup 0 1 with bgdt := fun _ => ⟨3, 5, 2⟩, bitmaps := fun _ _ => 0b11111001#8 }

theorem reach_emptyInode (fs : EXT2FileSystem) {path : List Nat} (below : path ≠ []) : fs.reach emptyInode path = none := by
  induction path with
  | nil => exact absurd rfl below
  | cons slot path ih =>
    rw [reach_cons]
    cases path with
    | nil => rfl
    | cons next path =>
      rw [ih (cons_ne_nil _ _)]
      rfl

theorem wellFormed_emptyInode (fs : EXT2FileSystem) : fs.WellFormed emptyInode := by
  have root : ∀ path node, fs.reach emptyInode path = some node → path = [] := by
    intro path node hr
    by_contra below
    rw [reach_emptyInode fs below] at hr
    exact nomatch hr
  intro path path' node _ _ there there'
  rw [root path node there, root path' node there']

theorem first_indirect_block : (twoFree.getOrAllocateBlockForFileOffset emptyInode 12).1 = 3 ∧
    Agrees twoFree (twoFree.getOrAllocateBlockForFileOffset emptyInode 12).2.2 emptyInode
      (twoFree.getOrAllocateBlockForFileOffset emptyInode 12).2.1 12
      (twoFree.getOrAllocateBlockForFileOffset emptyInode 12).1 := by
  have ans : (twoFree.getOrAllocateBlockForFileOffset emptyInode 12).2.2.taken.drop twoFree.taken.length = [2, 3] := by
    decide
  refine ⟨by decide, getOrAllocate_agrees rfl (wellFormed_emptyInode _) (by decide) (by decide) ?_⟩
  rw [ans]
  refine ⟨by decide, by decide, fun blockNum _ path _ hr => ?_⟩
  cases path with
  | nil => exact nomatch hr
  | cons slot path => exact nomatch (reach_emptyInode twoFree (cons_ne_nil slot path)).symm.trans hr

end RosKernel.Ext2
