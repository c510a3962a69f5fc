import RosKernel.Library.Pruning
import RosKernel.Ext2.BlockTree

/-! What the walks of `Truncate` leave of a tree of blocks.

A walk works on the pointers that it read before it writes any of them back, so the labels of the
tree are those of the volume at its start.
-/

set_option autoImplicit false

namespace RosKernel.Ext2

open Library EXT2FileSystem List
open Function (update update_of_ne update_self)

/-- What freeing blocks and writing pointers leaves alone. -/
structure Beside (fs after : EXT2FileSystem) : Prop where
  size : after.blockSize = fs.blockSize
  inodes : after.inodes = fs.inodes
  tables : after.inodeTableBlock = fs.inodeTableBlock

theorem Beside.refl (fs : EXT2FileSystem) : Beside fs fs := ⟨rfl, rfl, rfl⟩

theorem Beside.trans {fs mid after : EXT2FileSystem} (first : Beside fs mid) (snd : Beside mid after) :
    Beside fs after := ⟨snd.size.trans first.size, snd.inodes.trans first.inodes, snd.tables.trans first.tables⟩

theorem Beside.entries {fs after : EXT2FileSystem} (beside : Beside fs after) : after.entriesPerBlock = fs.entriesPerBlock :=
  congrArg (· / 4) beside.size

def Inode.dropBlocks (blockSize count : Nat) (inode : Inode) : Inode := (fun inode => inode.dropBlock blockSize)^[count] inode

theorem Inode.dropBlocks_add (blockSize first snd : Nat) (inode : Inode) :
    (inode.dropBlocks blockSize first).dropBlocks blockSize snd = inode.dropBlocks blockSize (first + snd) := by
  unfold dropBlocks
  rw [Nat.add_comm, Function.iterate_add_apply]

section

variable {fs : EXT2FileSystem}

theorem beside_giveBit (fs : EXT2FileSystem) (group bit : Nat) : Beside fs (fs.giveBit group bit) where
  size := rfl
  inodes := rfl
  tables := by
    funext inodeNum
    have table : ∀ other, ((fs.giveBit group bit).bgdt other).bgInodeTable = (fs.bgdt other).bgInodeTable := by
      intro other
      change (update fs.bgdt group _ other).bgInodeTable = _
      by_cases eq : other = group
      · rw [eq, update_self]
      · rw [update_of_ne eq]
    unfold inodeTableBlock
    dsimp only
    rw [table]
    rfl

theorem freeBlock_frame (fs : EXT2FileSystem) (blockNum : Nat) : (fs.freeBlock blockNum).2.faults <:+ fs.faults ∧
    (fs.freeBlock blockNum).2.words = fs.words ∧ Beside fs (fs.freeBlock blockNum).2 ∧
    (fs.freeBlock blockNum).2.freed = fs.freed ++ [blockNum] := by
  have recorded : ∀ faults, Beside fs ((fs.recordFree blockNum).withFaults faults) := fun _ => ⟨rfl, rfl, rfl⟩
  unfold freeBlock
  dsimp only
  split
  · exact ⟨suffix_rfl, rfl, ⟨rfl, rfl, rfl⟩, rfl⟩
  split
  · exact ⟨suffix_rfl, rfl, ⟨rfl, rfl, rfl⟩, rfl⟩
  obtain ⟨faults, fewer, failed | given⟩ := freeBit_cases (fs.recordFree blockNum) ((blockNum - 1) /
    (fs.recordFree blockNum).superblock.sBlocksPerGroup) ((blockNum - 1) % (fs.recordFree blockNum).superblock.sBlocksPerGroup)
  · rw [failed]
    exact ⟨fewer, rfl, recorded faults, rfl⟩
  · rw [given]
    exact ⟨fewer, rfl, (recorded faults).trans (beside_giveBit _ _ _), rfl⟩

end

section

variable {fs : EXT2FileSystem} {inodeNum blockNum : Nat}

section

variable (sound : fs.faults = []) (there : blockNum ≠ 0) (placed : fs.inodeTableBlock inodeNum = some blockNum)
include sound there placed

theorem readInode_succeeds : fs.readInode inodeNum = (some (fs.inodes inodeNum), fs) := by
  unfold readInode
  rw [placed]
  dsimp only
  rw [blockRequest_succeeds there sound]
  rfl

theorem writeInode_succeeds (inode : Inode) : fs.writeInode inodeNum inode = (true, fs.setInode inodeNum inode) := by
  unfold writeInode
  rw [placed]
  dsimp only
  rw [blockRequest_succeeds there sound]
  rw [blockRequest_succeeds there sound]
  rfl

end

end

section

variable (label : List Nat → Nat) (drops : List Nat → Bool) (height : List Nat → Nat) (entries : Nat)

/-- The pointer blocks at and below a path hold what the labels say. -/
def Shows (fs : EXT2FileSystem) (path : List Nat) : Prop :=
  ∀ node, Under entries (height path) path node → 0 < height node → label node ≠ 0 →
    ∀ slot < entries, fs.words (label node) slot = label (slot :: node)

/-- A kept pointer block holds the pointers that are kept. -/
def ShowsPruned (fs : EXT2FileSystem) (path : List Nat) : Prop :=
  ∀ node, Under entries (height path) path node → 0 < height node → kept label drops entries (height node) node = true →
    ∀ slot < entries, fs.words (label node) slot = pruned label drops entries (height (slot :: node)) (slot :: node)

/-- The pointer blocks at and below a path are others than this one. -/
def Avoids (path : List Nat) (blockNum : Nat) : Prop :=
  ∀ node, Under entries (height path) path node → 0 < height node → label node ≠ blockNum

/-- What the walk below a path makes of the inode, the volume and the slot. -/
structure Cuts (path : List Nat) (inode : Inode) (fs : EXT2FileSystem) (result : Nat × Inode × EXT2FileSystem) : Prop where
  entry : result.1 = pruned label drops entries (height path) path
  inode : result.2.1 = inode.dropBlocks fs.blockSize
    ((released label drops entries (height path) path).countP fun node => height node = 0)
  sound : result.2.2.faults = []
  beside : Beside fs result.2.2
  freed : result.2.2.freed = fs.freed ++ (released label drops entries (height path) path).map label
  written : ShowsPruned label drops height entries result.2.2 path
  frame : ∀ blockNum ≠ 0, Avoids label height entries path blockNum → result.2.2.words blockNum = fs.words blockNum

/-- All that the first slots of a path release. -/
def releasedBelow (path : List Nat) (count : Nat) : List (List Nat) :=
  (range count).flatMap fun slot => released label drops entries (height (slot :: path)) (slot :: path)

/-- What the walks below the first slots of a path make of them. -/
structure CutsBelow (path : List Nat) (count : Nat) (pointers : Nat → Nat) (inode : Inode) (fs : EXT2FileSystem)
    (result : (Nat → Nat) × Inode × EXT2FileSystem) : Prop where
  slots : ∀ slot, result.1 slot =
    if slot < count then pruned label drops entries (height (slot :: path)) (slot :: path) else pointers slot
  inode : result.2.1 = inode.dropBlocks fs.blockSize
    ((releasedBelow label drops height entries path count).countP fun node => height node = 0)
  sound : result.2.2.faults = []
  beside : Beside fs result.2.2
  freed : result.2.2.freed = fs.freed ++ (releasedBelow label drops height entries path count).map label
  written : ∀ slot < count, ShowsPruned label drops height entries result.2.2 (slot :: path)
  frame : ∀ blockNum ≠ 0, (∀ slot < count, Avoids label height entries (slot :: path) blockNum) →
    result.2.2.words blockNum = fs.words blockNum

end

section

variable {label : List Nat → Nat} {drops : List Nat → Bool} {height : List Nat → Nat} {entries : Nat} {path : List Nat}
  {fs : EXT2FileSystem} {inode : Inode} {pointers : Nat → Nat} {count : Nat}

theorem releasedBelow_succ (count : Nat) : releasedBelow label drops height entries path (count + 1) =
    releasedBelow label drops height entries path count ++
      released label drops entries (height (count :: path)) (count :: path) := by
  unfold releasedBelow
  rw [range_succ, flatMap_append, flatMap_singleton]

theorem CutsBelow.zero (sound : fs.faults = []) : CutsBelow label drops height entries path 0 pointers inode fs
    (pointers, inode, fs) where
  slots _ := rfl
  inode := rfl
  sound := sound
  beside := .refl fs
  freed := (append_nil _).symm
  written _ none := absurd none (Nat.not_lt_zero _)
  frame _ _ _ := rfl

theorem CutsBelow.skip {res : (Nat → Nat) × Inode × EXT2FileSystem}
    (cuts : CutsBelow label drops height entries path count pointers inode fs res)
    (starts : pointers count = label (count :: path)) (miss : label (count :: path) = 0)
    (closed : ∀ slot path, path ≠ [] → label path = 0 → label (slot :: path) = 0) :
    CutsBelow label drops height entries path (count + 1) pointers inode fs res := by
  have goes : kept label drops entries (height (count :: path)) (count :: path) = false :=
    eq_false_of_ne_true fun keeps => kept_label keeps miss
  have none : released label drops entries (height (count :: path)) (count :: path) = [] := released_eq_nil miss
  constructor
  case slots =>
    intro slot
    rw [cuts.slots slot]
    by_cases h : slot = count
    · rw [h, if_neg (Nat.lt_irrefl _), if_pos (Nat.lt_succ_self _), starts, miss, pruned_eq_zero.mpr goes]
    · exact if_congr (by omega) rfl rfl
  case inode => rw [releasedBelow_succ, none, append_nil, cuts.inode]
  case sound => exact cuts.sound
  case beside => exact cuts.beside
  case freed => rw [releasedBelow_succ, none, append_nil, cuts.freed]
  case written =>
    intro slot hin node under inner keeps
    by_cases h : slot = count
    · subst h
      have there := under.label_ne_zero closed (cons_ne_nil _ _) (kept_label keeps)
      exact absurd miss there
    · exact cuts.written slot (by omega) node under inner keeps
  case frame => exact fun blockNum there away => cuts.frame blockNum there fun slot hin => away slot (by omega)

theorem CutsBelow.step {slots : Nat → Nat} {inode' : Inode} {mid : EXT2FileSystem} {res : Nat × Inode × EXT2FileSystem}
    (cuts : CutsBelow label drops height entries path count pointers inode fs (slots, inode', mid))
    (walked : Cuts label drops height entries (count :: path) inode' mid res)
    (ne : ∀ slot < count, ∀ node, Under entries (height (slot :: path)) (slot :: path) node → label node ≠ 0 →
      Avoids label height entries (count :: path) (label node)) :
    CutsBelow label drops height entries path (count + 1) pointers inode fs
      (update slots count res.1, res.2.1, res.2.2) where
  slots slot := by
    have old := cuts.slots slot
    dsimp only at old ⊢
    by_cases h : slot = count
    · rw [h, update_self, walked.entry, if_pos (Nat.lt_succ_self _)]
    · grind
  inode := by
    rw [releasedBelow_succ, countP_append, ← Inode.dropBlocks_add, ← cuts.inode, ← cuts.beside.size]
    exact walked.inode
  sound := walked.sound
  beside := cuts.beside.trans walked.beside
  freed := by
    rw [walked.freed, cuts.freed, releasedBelow_succ, map_append, append_assoc]
  written := by
    intro slot hin node under inner keeps
    by_cases h : slot = count
    · subst h
      exact walked.written node under inner keeps
    · intro pos bound
      have there := kept_label keeps
      rw [walked.frame _ there (ne slot (by omega) node under there)]
      exact cuts.written slot (by omega) node under inner keeps pos bound
  frame blockNum there away := by
    rw [walked.frame blockNum there (away count (Nat.lt_succ_self _))]
    exact cuts.frame blockNum there fun slot hin => away slot (by omega)

theorem cutSlots_spec {walk : Nat → Nat → Inode → EXT2FileSystem → Nat × Inode × EXT2FileSystem} {total : Nat}
    (closed : ∀ slot path, path ≠ [] → label path = 0 → label (slot :: path) = 0)
    (each : ∀ slot < total, ∀ inode fs, fs.faults = [] → fs.entriesPerBlock = entries → label (slot :: path) ≠ 0 →
      Shows label height entries fs (slot :: path) →
      Cuts label drops height entries (slot :: path) inode fs (walk slot (label (slot :: path)) inode fs))
    (starts : ∀ slot < total, pointers slot = label (slot :: path))
    (ne : ∀ slot < total, ∀ other < total, slot ≠ other → ∀ node, Under entries (height (slot :: path)) (slot :: path) node →
      label node ≠ 0 → Avoids label height entries (other :: path) (label node))
    (shows : ∀ slot < total, Shows label height entries fs (slot :: path))
    (sound : fs.faults = []) (size : fs.entriesPerBlock = entries) (bound : count ≤ total) :
    CutsBelow label drops height entries path count pointers inode fs (cutSlots walk count pointers inode fs) := by
  induction count with
  | zero => exact .zero sound
  | succ count ih =>
    have cuts := ih (by omega)
    rw [cutSlots]
    generalize cutSlots walk count pointers inode fs = pre at cuts
    obtain ⟨slots, inode', mid⟩ := pre
    have h : slots count = label (count :: path) := by
      rw [← starts count bound]
      exact (cuts.slots count).trans (if_neg (Nat.lt_irrefl _))
    dsimp only
    split
    case isTrue miss =>
      exact cuts.skip (starts count bound) (h.symm.trans miss) closed
    case isFalse there =>
      rw [h] at there ⊢
      have still : Shows label height entries mid (count :: path) := by
        intro node under inner labelled pos within
        rw [cuts.frame _ labelled fun slot hin => ?_]
        · exact shows count bound node under inner labelled pos within
        · grind
      have walked := each count bound inode' mid cuts.sound (cuts.beside.entries.trans size) there still
      exact cuts.step walked fun slot hin node under labelled =>
        ne slot (by omega) count bound (by omega) node under labelled

end

section

variable {label : List Nat → Nat} {drops : List Nat → Bool} {height : List Nat → Nat} {entries level : Nat} {path : List Nat}
  {fs : EXT2FileSystem} {inode : Inode}
  (falls : ∀ slot path, path ≠ [] → height (slot :: path) = height path - 1)

include falls

section

variable (atLevel : height path = level + 1) (below : path ≠ []) (there : label path ≠ 0)
include atLevel below there

theorem released_succ :
    released label drops entries (height path) path = releasedBelow label drops height entries path entries ++
      if kept label drops entries (height path) path then [] else [path] := by
  have child : ∀ slot, height (slot :: path) = level := fun slot => height_child falls atLevel below
  rw [atLevel, released, if_neg there]
  congr 1
  apply flatMap_congr
  intro slot _
  rw [child slot]

theorem any_iff_kept {pointers : Nat → Nat}
    (slots : ∀ slot < entries, pointers slot = pruned label drops entries (height (slot :: path)) (slot :: path)) :
    ((range entries).any fun slot => pointers slot ≠ 0) = true ↔ kept label drops entries (height path) path = true := by
  rw [atLevel, kept_succ, any_eq_true]
  constructor
  · rintro ⟨slot, hin, nz⟩
    rw [decide_eq_true_eq, slots slot (mem_range.mp hin), height_child falls atLevel below] at nz
    exact ⟨there, slot, mem_range.mp hin, eq_true_of_ne_false fun goes => nz (pruned_eq_zero.mpr goes)⟩
  · rintro ⟨_, slot, hin, keeps⟩
    refine ⟨slot, mem_range.mpr hin, ?_⟩
    rw [decide_eq_true_eq, slots slot hin, height_child falls atLevel below, pruned_kept keeps]
    exact kept_label keeps

end

theorem cut_spec (closed : ∀ slot path, path ≠ [] → label path = 0 → label (slot :: path) = 0)
    (atLevel : height path = level) (below : path ≠ [])
    (once : ∀ node node', Under entries (height path) path node → Under entries (height path) path node' → label node ≠ 0 →
      label node = label node' → node = node')
    (sound : fs.faults = []) (size : fs.entriesPerBlock = entries) (there : label path ≠ 0)
    (shows : Shows label height entries fs path) :
    Cuts label drops height entries path inode fs (cut drops level path (label path) inode fs) := by
  induction level generalizing path inode fs with
  | zero =>
    rw [cut]
    have single : ∀ {node}, Under entries (height path) path node → ¬0 < height node := by
      intro node under inner
      rw [atLevel] at under
      rw [under_zero.mp under, atLevel] at inner
      exact Nat.lt_irrefl 0 inner
    cases goes : drops path with
    | true =>
      have gone : kept label drops entries 0 path = false := eq_false_of_ne_true fun keeps => by
        rw [kept_zero, goes] at keeps
        exact nomatch keeps.2
      have all : released label drops entries 0 path = [path] := by simp [released, there, goes]
      obtain ⟨fewer, words, beside, freed⟩ := freeBlock_frame fs (label path)
      rw [sound] at fewer
      rw [if_pos rfl]
      constructor
      case entry => rw [atLevel, pruned_eq_zero.mpr gone]
      case inode =>
        rw [atLevel, all, countP_singleton, if_pos (by simp [atLevel])]
        rfl
      case sound => exact suffix_nil.mp fewer
      case beside => exact beside
      case freed => rw [freed, atLevel, all, map_singleton]
      case written => exact fun node under inner => absurd inner (single under)
      case frame => exact fun blockNum _ _ => congrFun words blockNum
    | false =>
      have stays : kept label drops entries 0 path = true := kept_zero.mpr ⟨there, goes⟩
      have none : released label drops entries 0 path = [] := by simp [released, goes]
      rw [if_neg (by decide)]
      constructor
      case entry => rw [atLevel, pruned_kept stays]
      case inode =>
        rw [atLevel, none]
        rfl
      case sound => exact sound
      case beside => exact .refl fs
      case freed => rw [atLevel, none, map_nil, append_nil]
      case written => exact fun node under inner => absurd inner (single under)
      case frame => exact fun _ _ _ => rfl
  | succ level ih =>
    have child : ∀ slot, height (slot :: path) = level := fun slot => height_child falls atLevel below
    have deeper : ∀ {slot node}, slot < entries → Under entries (height (slot :: path)) (slot :: path) node →
        Under entries (height path) path node := by
      intro slot node hin under
      rw [child] at under
      rw [atLevel]
      exact under_succ.mpr (.inr ⟨slot, hin, under⟩)
    have top : Under entries (height path) path path := .refl _ path
    have inner : 0 < height path := by omega
    have each : ∀ slot < entries, ∀ inode fs, fs.faults = [] → fs.entriesPerBlock = entries → label (slot :: path) ≠ 0 →
        Shows label height entries fs (slot :: path) → Cuts label drops height entries (slot :: path) inode fs
          (cut drops level (slot :: path) (label (slot :: path)) inode fs) :=
      fun slot hin inode fs sound size labelled shows => ih (child slot) (cons_ne_nil slot path)
        (fun node node' under under' => once node node' (deeper hin under) (deeper hin under')) sound size labelled shows
    have cuts := @cutSlots_spec label drops height entries path fs inode (fs.words (label path)) entries
      (fun slot => cut drops level (slot :: path)) entries closed each
      (fun slot hin => shows path top inner there slot hin)
      (fun slot hin other otherIn ne node under labelled node' under' _ eq =>
        ne (under.slot_eq (once node node' (deeper hin under) (deeper otherIn under') labelled eq.symm ▸ under')))
      (fun slot hin node under => shows node (deeper hin under)) sound size (Nat.le_refl _)
    rw [cut, readWords_succeeds sound there]
    dsimp only
    rw [size]
    generalize cutSlots (fun slot => cut drops level (slot :: path)) entries (fs.words (label path)) inode fs = walked at cuts
    obtain ⟨pointers, inode', mid⟩ := walked
    have slots : ∀ slot < entries, pointers slot = pruned label drops entries (height (slot :: path)) (slot :: path) :=
      fun slot hin => (cuts.slots slot).trans (if_pos hin)
    have anyKept := any_iff_kept falls atLevel below there slots
    have parts : released label drops entries (height path) path = releasedBelow label drops height entries path entries ++ _ :=
      released_succ falls atLevel below there
    have sizes : mid.entriesPerBlock = entries := cuts.beside.entries.trans size
    rw [sizes]
    cases keeps : kept label drops entries (height path) path with
    | true =>
      rw [if_pos (anyKept.mpr keeps), writeWords_succeeds cuts.sound there]
      rw [keeps, if_pos rfl, append_nil] at parts
      constructor
      case entry => exact (pruned_kept keeps).symm
      case inode => rw [parts]; exact cuts.inode
      case sound => exact cuts.sound
      case beside => exact cuts.beside.trans ⟨rfl, rfl, rfl⟩
      case freed => rw [parts]; exact cuts.freed
      case written =>
        intro node under above nodeKept slot hin
        change update mid.words (label path) pointers (label node) slot = _
        rw [atLevel] at under
        rcases under_succ.mp under with eq | ⟨first, firstIn, further⟩
        · rw [eq, update_self]
          exact slots slot hin
        · have other : label node ≠ label path := by
            intro eq
            rw [← atLevel] at under
            have lengths := further.suffix.length_le
            rw [once node path under top (kept_label nodeKept) eq, length_cons] at lengths
            omega
          rw [update_of_ne other]
          rw [← child first] at further
          exact cuts.written first firstIn node further above nodeKept slot hin
      case frame =>
        intro blockNum nz away
        change update mid.words (label path) pointers blockNum = _
        rw [update_of_ne (away path top inner).symm]
        exact cuts.frame blockNum nz fun slot hin node under => away node (deeper hin under)
    | false =>
      obtain ⟨fewer, words, beside, freed⟩ := freeBlock_frame mid (label path)
      have middleSound : mid.faults = [] := cuts.sound
      rw [middleSound] at fewer
      rw [if_neg fun any => by cases keeps.symm.trans (anyKept.mp any)]
      rw [keeps, if_neg (by decide)] at parts
      constructor
      case entry => exact (pruned_eq_zero.mpr keeps).symm
      case inode =>
        rw [parts, countP_append, countP_singleton, if_neg (by simp [atLevel]), Nat.add_zero]
        exact cuts.inode
      case sound => exact suffix_nil.mp fewer
      case beside => exact cuts.beside.trans beside
      case freed =>
        have pre : mid.freed = fs.freed ++ _ := cuts.freed
        rw [freed, parts, map_append, map_singleton, pre, append_assoc]
      case written =>
        intro node under above nodeKept slot hin
        rw [congrFun words (label node)]
        rw [atLevel] at under
        rcases under_succ.mp under with eq | ⟨first, firstIn, further⟩
        · grind
        · rw [← child first] at further
          exact cuts.written first firstIn node further above nodeKept slot hin
      case frame =>
        intro blockNum nz away
        rw [congrFun words blockNum]
        exact cuts.frame blockNum nz fun slot hin node under => away node (deeper hin under)

end

end RosKernel.Ext2
