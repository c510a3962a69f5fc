import RosKernel.Ext2.DirNames

/-! When `AddEntryToDirectory` makes a directory larger.

A fresh block is cleared, and the length of its first record is zero, so no entry fits it. A walk that
finds no room in the blocks that are there fills the directory with fresh blocks and returns false.
-/

set_option autoImplicit false

namespace RosKernel.Ext2

open Library EXT2FileSystem List

/-- Where a walk over these data blocks ends when none is missing. -/
def settle (entry : NewEntry) (paths : List (List Nat)) (inode : Inode) (fs : EXT2FileSystem) : Walk :=
  match paths.findSome? fun leaf => (fs.answerAt inode (fs.entryAdded entry) leaf).map fun data => (leaf, data) with
  | none => (.goesOn, inode, fs)
  | some (leaf, data) => (.added, inode, fs.setWords (fs.blockAt inode leaf) (wordView data))

/-- Before a missing block there is one that takes the entry. -/
def Settles (entry : NewEntry) (fs : EXT2FileSystem) (inode : Inode) (paths : List (List Nat)) : Prop :=
  ∀ front leaf back, paths = front ++ leaf :: back → fs.blockAt inode leaf = 0 → ∃ other ∈ front, fs.answerAt inode (fs.entryAdded entry) other ≠ none

section

variable {entry : NewEntry} {fs : EXT2FileSystem} {inode : Inode} {paths more : List (List Nat)} {path : List Nat}

theorem settle_append (paths more : List (List Nat)) : settle entry (paths ++ more) inode fs =
    (settle entry paths inode fs).goOn fun inode fs => settle entry more inode fs := by
  unfold settle
  rw [findSome?_append]
  cases paths.findSome? fun leaf => (fs.answerAt inode (fs.entryAdded entry) leaf).map fun data => (leaf, data) with
  | none => rfl
  | some hf => rfl

theorem settle_goesOn (silent : ∀ leaf ∈ paths, fs.answerAt inode (fs.entryAdded entry) leaf = none) :
    settle entry paths inode fs = (.goesOn, inode, fs) := by
  have none : (paths.findSome? fun leaf => (fs.answerAt inode (fs.entryAdded entry) leaf).map fun data => (leaf, data)) = none :=
    findSome?_eq_none_iff.mpr fun leaf mem => by rw [silent leaf mem, Option.map_none]
  unfold settle
  rw [none]

theorem Settles.left (settles : Settles entry fs inode (paths ++ more)) : Settles entry fs inode paths := by
  intro front leaf back split miss
  exact settles front leaf (back ++ more) (by rw [split, append_assoc, cons_append]) miss

theorem Settles.right (settles : Settles entry fs inode (paths ++ more))
    (silent : ∀ leaf ∈ paths, fs.answerAt inode (fs.entryAdded entry) leaf = none) : Settles entry fs inode more := by
  intro front leaf back split miss
  obtain ⟨other, mem, takes⟩ := settles (paths ++ front) leaf back (by rw [split, append_assoc]) miss
  exact (mem_append.mp mem).elim (fun early => absurd (silent other early) takes) fun late => ⟨other, late, takes⟩

theorem settle_cases (entry : NewEntry) (fs : EXT2FileSystem) (inode : Inode) (paths : List (List Nat)) :
    (settle entry paths inode fs = (.goesOn, inode, fs) ∧ ∀ leaf ∈ paths, fs.answerAt inode (fs.entryAdded entry) leaf = none) ∨
    ∃ leaf ∈ paths, ∃ data, settle entry paths inode fs = (.added, inode, fs.setWords (fs.blockAt inode leaf) (wordView data)) := by
  by_cases silent : ∀ leaf ∈ paths, fs.answerAt inode (fs.entryAdded entry) leaf = none
  · exact .inl ⟨settle_goesOn silent, silent⟩
  · right
    unfold settle
    cases hf : paths.findSome? fun leaf => (fs.answerAt inode (fs.entryAdded entry) leaf).map fun data => (leaf, data) with
    | none =>
      refine absurd (fun leaf mem => ?_) silent
      exact Option.map_eq_none_iff.mp (findSome?_eq_none_iff.mp hf leaf mem)
    | some pair =>
      obtain ⟨leaf, mem, h⟩ := exists_of_findSome?_eq_some hf
      obtain ⟨data, _, rfl⟩ := Option.map_eq_some_iff.mp h
      exact ⟨leaf, mem, data, rfl⟩

theorem settle_goOn {walk : Walk} {next : Inode → EXT2FileSystem → Walk} (begins : walk = settle entry paths inode fs)
    (settles : Settles entry fs inode (paths ++ more))
    (continues : Settles entry fs inode more → next inode fs = settle entry more inode fs) :
    walk.goOn next = settle entry (paths ++ more) inode fs := by
  rw [settle_append, begins]
  rcases settle_cases entry fs inode paths with ⟨goesOn, silent⟩ | ⟨leaf, _, data, added⟩
  · rw [goesOn]
    exact continues (settles.right silent)
  · rw [added]
    rfl

theorem addInBlock_settles (sound : fs.faults = []) (there : fs.blockAt inode path ≠ 0) :
    fs.addInBlock entry (fs.blockAt inode path) inode = settle entry [path] inode fs := by
  unfold addInBlock tryAddInBlock settle
  rw [readWords_succeeds sound there, findSome?_singleton, answerAt, if_neg there]
  dsimp only
  cases room : fs.entryAdded entry (fs.words (fs.blockAt inode path)) with
  | none => rfl
  | some data =>
    change (if (fs.writeWords (fs.blockAt inode path) (wordView data)).1 = true then Walked.added else Walked.goesOn, inode,
      (fs.writeWords (fs.blockAt inode path) (wordView data)).2) = _
    rw [writeWords_succeeds sound there]
    rfl

theorem pathsUnder_ne_nil {entries level : Nat} (pos : 0 < entries) (path : List Nat) : pathsUnder entries level path ≠ [] := by
  induction level generalizing path with
  | zero => exact cons_ne_nil _ _
  | succ level ih =>
    rw [pathsUnder, Ne, flatMap_eq_nil_iff]
    exact fun none => ih (0 :: path) (none 0 (mem_range.mpr pos))

theorem Settles.there {entries level : Nat} (pos : 0 < entries) (below : path ≠ [])
    (settles : Settles entry fs inode (pathsUnder entries level path ++ more)) : fs.blockAt inode path ≠ 0 := by
  intro miss
  obtain ⟨first, rest, split⟩ := exists_cons_of_ne_nil (@pathsUnder_ne_nil _ level pos path)
  have under : first ∈ pathsUnder entries level path := by
    rw [split]
    exact .head _
  obtain ⟨other, none, _⟩ := settles [] first (rest ++ more) (by rw [split]; rfl) (blockAt_missing below miss (suffix_of_mem under))
  exact nomatch none

theorem fillSlots_settles {visit : Nat → Inode → EXT2FileSystem → Walk} {zeroBuf checked last : Bool} {table level entries : Nat}
    {ptrs : Nat → Nat} (content : ∀ slot, fs.blockAt inode (slot :: path) = ptrs slot) {slots : List Nat}
    (lt : ∀ slot ∈ slots, slot < entries)
    (visits : ∀ slot, fs.blockAt inode (slot :: path) ≠ 0 → Settles entry fs inode (pathsUnder entries level (slot :: path)) →
      visit (fs.blockAt inode (slot :: path)) inode fs = settle entry (pathsUnder entries level (slot :: path)) inode fs)
    (settles : Settles entry fs inode (slots.flatMap fun slot => pathsUnder entries level (slot :: path))) :
    fillSlots zeroBuf visit checked last table slots ptrs inode fs =
      settle entry (slots.flatMap fun slot => pathsUnder entries level (slot :: path)) inode fs := by
  induction slots with
  | nil => rfl
  | cons slot slots ih =>
    have hin := lt slot (.head _)
    have there := settles.there (by omega) (cons_ne_nil _ _)
    rw [fillSlots, ← content, if_pos there]
    exact settle_goOn (visits slot there settles.left) settles (ih fun other mem => lt other (.tail _ mem))

theorem fill_settles {zeroBuf checked : Bool} {level : Nat} (sound : fs.faults = []) (below : path ≠ []) (there : fs.blockAt inode path ≠ 0)
    (settles : Settles entry fs inode (pathsUnder fs.entriesPerBlock level path)) :
    fill entry zeroBuf checked level (fs.blockAt inode path) inode fs = settle entry (pathsUnder fs.entriesPerBlock level path) inode fs := by
  induction level generalizing path with
  | zero => exact addInBlock_settles sound there
  | succ level ih =>
    rw [fill, readWords_succeeds sound there]
    exact fillSlots_settles (blockAt_cons ((reach_iff below there).mpr rfl)) (fun slot => mem_range.mp)
      (fun slot named => ih (cons_ne_nil _ _) named) settles

theorem addUnder_settles {zeroBuf : Bool} (sound : fs.faults = []) (pos : 0 < fs.entriesPerBlock) {roots : List Nat}
    (settles : Settles entry fs inode (roots.flatMap fun root => pathsUnder fs.entriesPerBlock (root - 11) [root])) :
    addUnder entry zeroBuf roots inode fs =
      settle entry (roots.flatMap fun root => pathsUnder fs.entriesPerBlock (root - 11) [root]) inode fs := by
  induction roots with
  | nil => rfl
  | cons root roots ih =>
    have there := settles.there pos (cons_ne_nil root [])
    have named := blockAt_root fs inode root ▸ there
    rw [addUnder]
    unfold plantRoot
    rw [if_pos named]
    dsimp only
    rw [if_neg named]
    have begins := @fill_settles entry fs inode [root] zeroBuf (root == 12) (root - 11) sound (cons_ne_nil _ _) there settles.left
    rw [blockAt_root] at begins
    exact settle_goOn begins settles ih

theorem addDirect_settles {zeroBuf : Bool} (sound : fs.faults = []) {slots : List Nat} (isDirect : ∀ slot ∈ slots, slot < 12)
    (alloc : List Nat) (settles : Settles entry fs inode (slots.flatMap fun slot => pathsUnder fs.entriesPerBlock (slot - 11) [slot])) :
    direct (addDirect entry zeroBuf slots alloc inode fs) =
      settle entry (slots.flatMap fun slot => pathsUnder fs.entriesPerBlock (slot - 11) [slot]) inode fs := by
  induction slots with
  | nil => rfl
  | cons slot slots ih =>
    have lt := isDirect slot (.head _)
    have one : pathsUnder fs.entriesPerBlock (slot - 11) [slot] = [[slot]] := by
      rw [show slot - 11 = 0 by omega]
      rfl
    rw [flatMap_cons, one] at settles ⊢
    have there : fs.blockAt inode [slot] ≠ 0 := fun miss => by
      obtain ⟨_, none, _⟩ := settles [] [slot] _ rfl miss
      exact nomatch none
    have named := blockAt_root fs inode slot ▸ there
    rw [addDirect, if_pos named]
    have begins := @addInBlock_settles entry fs inode [slot] sound there
    rw [blockAt_root] at begins
    have whole : (fs.addInBlock entry (inode.iBlock slot) inode).goOn (fun inode fs => direct (addDirect entry zeroBuf slots alloc inode fs)) = _ :=
      settle_goOn begins settles (ih fun other mem => isDirect other (.tail _ mem))
    rw [← whole]
    generalize fs.addInBlock entry (inode.iBlock slot) inode = walk
    obtain ⟨walked, inode', after⟩ := walk
    cases walked <;> rfl

theorem addToBlocks_settles {zeroBuf : Bool} (sound : fs.faults = []) (pos : 0 < fs.entriesPerBlock)
    (settles : Settles entry fs inode (leafPaths fs.entriesPerBlock)) :
    direct (fs.addToBlocks entry zeroBuf inode) = settle entry (leafPaths fs.entriesPerBlock) inode fs := by
  rw [leafPaths_eq] at settles ⊢
  have begins : direct (addDirect entry zeroBuf (range 12) [] inode fs) = _ :=
    addDirect_settles sound (fun slot => mem_range.mp) [] settles.left
  have whole : (direct (addDirect entry zeroBuf (range 12) [] inode fs)).goOn (fun inode fs => addUnder entry zeroBuf [12, 13, 14] inode fs) = _ :=
    settle_goOn begins settles (addUnder_settles sound pos)
  rw [← whole]
  unfold addToBlocks
  generalize addDirect entry zeroBuf (range 12) [] inode fs = walk
  obtain ⟨walked, alloc, inode', after⟩ := walk
  cases walked <;> rfl

end

/-- The last record of a block has the length that the name needs. -/
def EXT2FileSystem.HasRoom (fs : EXT2FileSystem) (inode : Inode) (listing : List Nat → List DirRecord) (name : List UInt8) : Prop :=
  ∃ leaf, Leaf fs.entriesPerBlock leaf ∧ fs.blockAt inode leaf ≠ 0 ∧
    ∃ front last, listing leaf = front ++ [last] ∧ getNeedRecLen name.length ≤ last.spare

/-- After a missing data block there is none. -/
def EXT2FileSystem.NoHoles (fs : EXT2FileSystem) (inode : Inode) : Prop :=
  (leafPaths fs.entriesPerBlock).Pairwise fun earlier later => fs.blockAt inode later ≠ 0 → fs.blockAt inode earlier ≠ 0

section

variable {fs : EXT2FileSystem} {inode : Inode} {listing : List Nat → List DirRecord} {entry : NewEntry} {iMode parent : Nat} {leaf : List Nat}

theorem answerAt_there (takes : fs.answerAt inode (fs.entryAdded entry) leaf ≠ none) : fs.blockAt inode leaf ≠ 0 :=
  fun miss => takes (if_pos miss)

theorem EXT2FileSystem.IsDirectory.hasRoom_iff (dir : fs.IsDirectory inode listing) (short : entry.name.length < 2 ^ 8)
    (narrow : entry.inodeNum < 2 ^ 32) : fs.HasRoom inode listing entry.name ↔
      ∃ leaf, Leaf fs.entriesPerBlock leaf ∧ fs.answerAt inode (fs.entryAdded entry) leaf ≠ none := by
  constructor
  · rintro ⟨leaf, isLeaf, there, front, last, split, roomy⟩
    refine ⟨leaf, isLeaf, ?_⟩
    have block := dir.blocks leaf isLeaf
    rw [if_neg there, split] at block
    rcases block with chain | ⟨_, none⟩
    · obtain ⟨_, _, _, _, _, search⟩ := @Records.addFrom_last _ _ fs.blockSize _ entry.inodeNum entry.typeCode entry.name _ _ chain (by omega) short
      unfold answerAt entryAdded
      rw [if_neg there, search, if_pos roomy]
      exact Option.some_ne_none _
    · exact absurd none (append_ne_nil_of_right_ne_nil _ (cons_ne_nil _ _))
  · rintro ⟨leaf, isLeaf, takes⟩
    have there := answerAt_there takes
    have block := dir.blocks leaf isLeaf
    rw [if_neg there] at block
    rw [answerAt, if_neg there] at takes
    obtain ⟨data, hf⟩ := Option.ne_none_iff_exists'.mp takes
    obtain ⟨front, last, split, roomy, _⟩ := block.entryAdded narrow short hf
    exact ⟨leaf, isLeaf, there, front, last, split, roomy⟩

theorem EXT2FileSystem.NoHoles.settles (noHoles : fs.NoHoles inode) (isLeaf : Leaf fs.entriesPerBlock leaf)
    (takes : fs.answerAt inode (fs.entryAdded entry) leaf ≠ none) : Settles entry fs inode (leafPaths fs.entriesPerBlock) := by
  intro front miss back split empty
  unfold NoHoles at noHoles
  have mem := mem_leafPaths.mpr isLeaf
  rw [split] at noHoles mem
  have there := answerAt_there takes
  rcases mem_append.mp mem with early | late
  · exact ⟨leaf, early, takes⟩
  · rcases mem_cons.mp late with eq | behind
    · exact absurd (eq ▸ empty) there
    · have pre := (pairwise_cons.mp (pairwise_append.mp noHoles).2.1).1 leaf behind there
      exact absurd empty pre

theorem addEntry_settles (sound : fs.faults = []) (isDir : iMode &&& ext2SIfdir ≠ 0) (pos : 0 < fs.entriesPerBlock)
    (isLeaf : Leaf fs.entriesPerBlock leaf) (takes : fs.answerAt inode (fs.entryAdded entry) leaf ≠ none)
    (settles : Settles entry fs inode (leafPaths fs.entriesPerBlock)) :
    (fs.addEntryToDirectory entry iMode inode parent).1 = true ∧ (fs.addEntryToDirectory entry iMode inode parent).2.2.taken = fs.taken := by
  have walk := @addToBlocks_settles entry fs inode true sound pos settles
  rcases settle_cases entry fs inode (leafPaths fs.entriesPerBlock) with ⟨_, silent⟩ | ⟨other, _, data, added⟩
  · exact absurd (silent leaf (mem_leafPaths.mpr isLeaf)) takes
  · rw [added] at walk
    unfold addEntryToDirectory
    rw [if_neg isDir, request_succeeds sound]
    dsimp only
    generalize fs.addToBlocks entry true inode = res at walk ⊢
    obtain ⟨walked, alloc, inode', after⟩ := res
    obtain ⟨rfl, eq⟩ := Prod.mk.inj walk
    cases eq
    exact ⟨rfl, (persist_words _ parent _).2.2⟩

theorem EXT2FileSystem.IsDirectory.addEntry_iff (dir : fs.IsDirectory inode listing) (sound : fs.faults = []) (cnt : fs.Counted)
    (ne : FreeApart fs inode) (noHoles : fs.NoHoles inode) (pos : 0 < fs.entriesPerBlock) (isDir : iMode &&& ext2SIfdir ≠ 0)
    (short : entry.name.length < 2 ^ 8) (narrow : entry.inodeNum < 2 ^ 32) :
    ((fs.addEntryToDirectory entry iMode inode parent).1 = true ∧
      (got ((fs.addEntryToDirectory entry iMode inode parent).2.2.taken.drop fs.taken.length)).length ≤ 4) ↔
    fs.HasRoom inode listing entry.name := by
  rw [dir.hasRoom_iff short narrow]
  constructor
  · rintro ⟨done, _⟩
    obtain ⟨_, ans, last, lends, _, adds⟩ := addEntry_added sound done
    obtain ⟨_, _, _, leaf, isLeaf, data, hf, _⟩ := adds dir.tree (lends.fresh cnt.mounted cnt.formatted ne)
    exact ⟨leaf, isLeaf, hf.trans_ne (Option.some_ne_none _)⟩
  · rintro ⟨leaf, isLeaf, takes⟩
    obtain ⟨done, ht⟩ := @addEntry_settles fs inode entry iMode parent leaf sound isDir pos isLeaf takes (noHoles.settles isLeaf takes)
    refine ⟨done, ?_⟩
    rw [ht, drop_length]
    exact Nat.zero_le _

end

end RosKernel.Ext2
