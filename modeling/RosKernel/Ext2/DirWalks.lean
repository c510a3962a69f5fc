import RosKernel.Ext2.DirTrees
import RosKernel.Ext2.Lending

/-! The walk of `AddEntryToDirectory` over the blocks of a directory.

With answers of `AllocateBlock` that are none of its blocks a directory grows by cleared blocks, and
these take no entry. So the entry goes to a block that was there before.
-/

set_option autoImplicit false

namespace RosKernel.Ext2

open Library EXT2FileSystem List
open Function (update update_self)

/-- A path that is `level` levels above data blocks. -/
def Above (entries level : Nat) (path : List Nat) : Prop :=
  ∃ slots root, path = slots ++ [root] ∧ root < 15 ∧ slots.length + level = root - 11 ∧ ∀ slot ∈ slots, slot < entries

section

variable {entries level slot : Nat} {path leaf : List Nat}

theorem Above.ne_nil (above : Above entries level path) : path ≠ [] := by
  obtain ⟨slots, root, rfl, _⟩ := above
  exact append_ne_nil_of_right_ne_nil _ (cons_ne_nil _ _)

theorem Above.within (above : Above entries level path) : Within entries path := by
  obtain ⟨slots, root, split, known, long, lt⟩ := above
  exact .inr ⟨slots, root, split, known, by omega, lt⟩

theorem Above.below (above : Above entries (level + 1) path) (hin : slot < entries) : Above entries level (slot :: path) := by
  obtain ⟨slots, root, rfl, known, long, lt⟩ := above
  exact ⟨slot :: slots, root, rfl, known, by rw [length_cons]; omega, forall_mem_cons.mpr ⟨hin, lt⟩⟩

theorem above_root {root : Nat} (known : root < 15) : Above entries (root - 11) [root] :=
  ⟨[], root, rfl, known, Nat.zero_add _, fun _ mem => nomatch mem⟩

theorem Above.reaches (above : Above entries level path) (under : leaf ∈ pathsUnder entries level path) : Leaf entries leaf := by
  obtain ⟨slots, root, rfl, known, long, lt⟩ := above
  obtain ⟨front, rfl, deep, fits⟩ := mem_pathsUnder.mp under
  refine ⟨front ++ slots, root, (append_assoc ..).symm, known, by rw [length_append]; omega, ?_⟩
  exact fun slot mem => (mem_append.mp mem).elim (fits slot) (lt slot)

theorem above_zero : Above entries 0 path ↔ Leaf entries path := .rfl

theorem Leaf.ne_nil (leaf : Leaf entries path) : path ≠ [] := Above.ne_nil (above_zero.mpr leaf)

theorem Leaf.ends (leaf : Leaf entries path) : ¬Within entries (slot :: path) := by
  obtain ⟨slots, root, rfl, _, long, _⟩ := leaf
  rintro (none | ⟨front, last, split, _, short, _⟩)
  · exact nomatch none
  · rw [← cons_append] at split
    obtain ⟨eq, roots⟩ := append_inj' split rfl
    rw [← eq, ← (cons.inj roots).1, length_cons] at short
    omega

end

/-! ## A growing tree -/

/-- A tree has got fresh blocks, cleared where they hold data. Of the blocks that it had, those of data
and those outside of a part hold what they held. -/
structure Grown (part : List Nat → Prop) (fs after : EXT2FileSystem) (inode inode' : Inode) (answers : List Nat) : Prop where
  wellFormed : after.WellFormed inode'
  paths : ∀ path, Within fs.entriesPerBlock path → path ≠ [] → after.blockAt inode' path = fs.blockAt inode path ∨
    (fs.blockAt inode path = 0 ∧ after.blockAt inode' path ∈ answers)
  kept : ∀ path, Within fs.entriesPerBlock path → path ≠ [] → (part path → Leaf fs.entriesPerBlock path) →
    fs.blockAt inode path ≠ 0 → after.words (fs.blockAt inode path) = fs.words (fs.blockAt inode path)
  cleared : ∀ path, Leaf fs.entriesPerBlock path → fs.blockAt inode path = 0 → after.blockAt inode' path ≠ 0 →
    after.words (after.blockAt inode' path) = fun _ => 0

section

variable {fs middle after : EXT2FileSystem} {inode inode' inode'' : Inode} {part more : List Nat → Prop} {first second answers : List Nat}
  {path : List Nat}

theorem blockAt_congr (words : after.words = fs.words) (eq : inode'.iBlock = inode.iBlock) (path : List Nat) :
    after.blockAt inode' path = fs.blockAt inode path := by
  have cells : after.cells inode' = fs.cells inode := by
    funext node
    cases node with
    | none => exact eq
    | some blockNum => exact congrFun words blockNum
  unfold blockAt reach
  rw [cells]

theorem Grown.same (wellFormed : fs.WellFormed inode) (words : after.words = fs.words) (size : after.blockSize = fs.blockSize)
    (eq : inode'.iBlock = inode.iBlock) : Grown part fs after inode inode' [] where
  wellFormed := by
    have cells : after.cells inode' = fs.cells inode := by
      funext node
      cases node with
      | none => exact eq
      | some blockNum => exact congrFun words blockNum
    unfold WellFormed entriesPerBlock at wellFormed ⊢
    rwa [cells, size]
  paths path _ _ := .inl (blockAt_congr words eq path)
  kept path _ _ _ _ := congrFun words _
  cleared path _ miss there := absurd ((blockAt_congr words eq path).trans miss) there

theorem Grown.mono (grown : Grown part fs after inode inode' answers) (hin : ∀ path, part path → more path) :
    Grown more fs after inode inode' answers where
  wellFormed := grown.wellFormed
  paths := grown.paths
  kept path within below out := grown.kept path within below fun mem => out (hin path mem)
  cleared := grown.cleared

theorem Grown.stays (grown : Grown part fs after inode inode' answers) (within : Within fs.entriesPerBlock path) (below : path ≠ [])
    (there : fs.blockAt inode path ≠ 0) : after.blockAt inode' path = fs.blockAt inode path :=
  (grown.paths path within below).resolve_right fun new => there new.1

theorem Grown.trans (left : Grown part fs middle inode inode' first) (size : middle.blockSize = fs.blockSize)
    (right : Grown part middle after inode' inode'' second) : Grown part fs after inode inode'' (first ++ second) := by
  have entries : middle.entriesPerBlock = fs.entriesPerBlock := congrArg (· / 4) size
  constructor
  case wellFormed => exact right.wellFormed
  case paths =>
    intro path within below
    rcases right.paths path (entries ▸ within) below with kept | ⟨empty, new⟩
    · rw [kept]
      exact (left.paths path within below).imp_right fun old => ⟨old.1, mem_append_left _ old.2⟩
    · refine .inr ⟨?_, mem_append_right _ new⟩
      rcases left.paths path within below with eq | old
      · exact eq.symm.trans empty
      · exact old.1
  case kept =>
    intro path within below out there
    have stays := left.stays within below there
    rw [← left.kept path within below out there, ← stays]
    exact right.kept path (entries ▸ within) below (entries ▸ out) (stays.trans_ne there)
  case cleared =>
    intro path leaf miss there
    have leaf' : Leaf middle.entriesPerBlock path := entries ▸ leaf
    by_cases empty : middle.blockAt inode' path = 0
    · exact right.cleared path leaf' empty there
    · rw [right.stays leaf'.within leaf'.ne_nil empty, right.kept path leaf'.within leaf'.ne_nil (fun _ => leaf') empty]
      exact left.cleared path leaf miss empty

theorem Grown.planted (wellFormed : fs.WellFormed inode) {slot new : Nat} {node : Option Nat} (fresh : Fresh fs inode [new])
    (size : after.blockSize = fs.blockSize) (within : Within fs.entriesPerBlock (slot :: path)) (hr : fs.reach inode path = some node)
    (plants : Plants named (fs.cells inode) (after.cells inode') node (some new) slot) (hin : path ≠ [] → part path) :
    Grown part fs after inode inode' [new] ∧ after.blockAt inode' (slot :: path) = new := by
  have provides := Provides.planted wellFormed fresh (congrArg (· / 4) size) within hr plants
  have away := fresh.away new (.head _)
  refine ⟨⟨provides.wellFormed, ?_, ?_, ?_⟩, provides.there⟩
  case refine_1 =>
    intro other otherIn below
    rcases provides.grows other otherIn with eq | ⟨empty, _, child, mem, planted⟩
    · exact .inl (congrArg (fun hr : Option (Option Nat) => hr.join.getD 0) eq)
    · refine .inr ⟨(reach_eq_none_iff below).mp empty, ?_⟩
      have h : after.blockAt inode' other = new := by
        unfold blockAt reach
        rw [planted, mem_singleton.mp mem]
        rfl
      exact h ▸ .head _
  case refine_2 =>
    intro other otherIn below out there
    have toOther := (reach_iff below there).mpr rfl
    funext pos
    refine plants.same (some (fs.blockAt inode other)) pos (fun eq => away other otherIn (eq ▸ toOther)) ?_
    rintro ⟨eq, _⟩
    have met : other = path := wellFormed other path _ otherIn (within_closed _ _ within) toOther (eq ▸ hr)
    subst met
    exact (out (hin below)).ends within
  case refine_3 =>
    intro other leaf miss there
    rcases provides.grows other leaf.within with eq | ⟨_, _, child, mem, planted⟩
    · exact absurd ((congrArg (fun hr : Option (Option Nat) => hr.join.getD 0) eq).trans miss) there
    · have h : after.blockAt inode' other = new := by
        unfold blockAt reach
        rw [planted, mem_singleton.mp mem]
        rfl
      rw [h]
      funext pos
      exact named_eq_none.mp (plants.barren pos)

theorem Fresh.onward (fresh : Fresh fs inode (first ++ second)) (size : middle.blockSize = fs.blockSize)
    (grown : Grown part fs middle inode inode' first) : Fresh middle inode' second where
  distinct := (nodup_append.mp fresh.distinct).2.1
  nonzero blockNum mem := fresh.nonzero blockNum (mem_append_right _ mem)
  away blockNum mem path within reached := by
    have entries : middle.entriesPerBlock = fs.entriesPerBlock := congrArg (· / 4) size
    have within' : Within fs.entriesPerBlock path := entries ▸ within
    have nonzero := fresh.nonzero blockNum (mem_append_right _ mem)
    cases path with
    | nil => exact nomatch reached
    | cons slot path =>
      have there := (reach_iff (cons_ne_nil _ _) nonzero).mp reached
      rcases grown.paths _ within' (cons_ne_nil _ _) with same | ⟨_, new⟩
      · refine fresh.away blockNum (mem_append_right _ mem) _ within' ((reach_iff (cons_ne_nil _ _) nonzero).mpr ?_)
        exact same.symm.trans there
      · exact (nodup_append.mp fresh.distinct).2.2 _ (there ▸ new) blockNum mem rfl

theorem Grown.answerAt_eq {α : Type} {answer : (Nat → Nat) → Option α} (silent : answer (fun _ => 0) = none)
    (grown : Grown part fs after inode inode' answers) (leaf : Leaf fs.entriesPerBlock path) :
    after.answerAt inode' answer path = fs.answerAt inode answer path := by
  unfold answerAt
  by_cases miss : fs.blockAt inode path = 0
  · rw [if_pos miss]
    split
    · rfl
    · rw [grown.cleared path leaf miss ‹_›, silent]
  · rw [grown.stays leaf.within leaf.ne_nil miss, grown.kept path leaf.within leaf.ne_nil (fun _ => leaf) miss]

end

/-! ## What a walk comes to -/

/-- The tree grows, and the entry is in a block that was there before, or in none of them. -/
def Scans (entry : NewEntry) (part : List Nat → Prop) (paths : List (List Nat)) (fs : EXT2FileSystem) (inode : Inode) (answers : List Nat)
    (walk : Walk) : Prop :=
  ∃ middle, Ran fs middle answers ∧ Grown part fs middle inode walk.2.1 (got answers) ∧
    ((walk.1 = .goesOn ∧ walk.2.2 = middle ∧ (∀ leaf ∈ paths, fs.answerAt inode (fs.entryAdded entry) leaf = none) ∧
      (answers = [] → ∀ leaf ∈ paths, fs.blockAt inode leaf ≠ 0)) ∨
    (walk.1 = .added ∧ ∃ leaf ∈ paths, ∃ data, fs.answerAt inode (fs.entryAdded entry) leaf = some data ∧
      walk.2.2 = middle.setWords (fs.blockAt inode leaf) (wordView data)))

/-- A walk without failing requests, from a place that is `known` in the tree; it ends with an error only if it may. -/
def Walks (entry : NewEntry) (abort : Prop) (part : List Nat → Prop) (paths : List (List Nat)) (known : Prop) (fs : EXT2FileSystem) (inode : Inode)
    (walk : Walk) : Prop :=
  ∃ answers, Lends fs walk.2.2 answers ∧ (walk.1 = .aborted → abort) ∧
    (walk.1 ≠ .aborted → known → fs.WellFormed inode → Fresh fs inode (got answers) → Scans entry part paths fs inode answers walk)

section

variable {entry : NewEntry} {part more : List Nat → Prop} {paths rest : List (List Nat)} {abort known later : Prop}
  {fs middle : EXT2FileSystem} {inode inode' : Inode} {walk : Walk}

theorem entryAdded_zero (fs : EXT2FileSystem) (entry : NewEntry) : fs.entryAdded entry (fun _ => 0) = none := by
  unfold entryAdded
  rw [byteView_zero]
  exact addFrom_zero

theorem entryAdded_congr (size : middle.blockSize = fs.blockSize) : middle.entryAdded entry = fs.entryAdded entry := by
  funext words
  unfold entryAdded
  rw [size]

theorem Scans.mono {answers : List Nat} (scans : Scans entry part paths fs inode answers walk) (wider : ∀ path, part path → more path)
    (longer : paths ⊆ rest) (ending : walk.1 ≠ .goesOn) : Scans entry more rest fs inode answers walk := by
  obtain ⟨middle, ran, grown, goesOn | ⟨added, leaf, mem, hf⟩⟩ := scans
  · exact absurd goesOn.1 ending
  · exact ⟨middle, ran, grown.mono wider, .inr ⟨added, leaf, longer mem, hf⟩⟩

theorem Walks.nothing (sound : fs.faults = []) : Walks entry abort part [] known fs inode (.goesOn, inode, fs) :=
  ⟨[], .refl sound, fun bad => (nomatch bad), fun _ _ wellFormed _ =>
    ⟨fs, .refl sound, .same wellFormed rfl rfl rfl, .inl ⟨rfl, rfl, fun _ mem => (nomatch mem), fun _ _ mem => nomatch mem⟩⟩⟩

theorem Walks.imp (walks : Walks entry abort part paths later fs inode walk) (leads : known → later) : Walks entry abort part paths known fs inode walk := by
  obtain ⟨answers, ran, aborts, scans⟩ := walks
  exact ⟨answers, ran, aborts, fun sane isKnown => scans sane (leads isKnown)⟩

theorem Walks.after {first : List Nat} (ran : Lends fs middle first)
    (grows : known → fs.WellFormed inode → Fresh fs inode (got first) → Grown part fs middle inode inode' (got first) ∧ later ∧
      (∀ leaf ∈ paths, fs.answerAt inode (fs.entryAdded entry) leaf = none) ∧ (first = [] → ∀ leaf ∈ paths, fs.blockAt inode leaf ≠ 0))
    (onward : Walks entry abort part rest later middle inode' walk) (leaves : ∀ leaf ∈ rest, Leaf fs.entriesPerBlock leaf) :
    Walks entry abort part (paths ++ rest) known fs inode walk := by
  obtain ⟨second, further, aborts, scans⟩ := onward
  refine ⟨first ++ second, ran.trans further, aborts, fun sane isKnown wellFormed fresh => ?_⟩
  rw [got_append] at fresh
  obtain ⟨grown, isLater, silent, full⟩ := grows isKnown wellFormed fresh.earlier
  obtain ⟨last, lastRan, lastGrown, outcome⟩ := scans sane isLater grown.wellFormed (fresh.onward ran.size grown)
  have answers : ∀ leaf ∈ rest, middle.answerAt inode' (middle.entryAdded entry) leaf = fs.answerAt inode (fs.entryAdded entry) leaf := by
    intro leaf mem
    rw [entryAdded_congr ran.size]
    exact grown.answerAt_eq (entryAdded_zero fs entry) (leaves leaf mem)
  refine ⟨last, ran.toRan.trans lastRan, got_append first second ▸ grown.trans ran.size lastGrown, ?_⟩
  rcases outcome with ⟨goesOn, eq, none, fullRest⟩ | ⟨added, leaf, mem, data, hf, written⟩
  · refine .inl ⟨goesOn, eq, fun leaf mem => ?_, fun unasked leaf mem => ?_⟩
    · rcases mem_append.mp mem with front | back
      · exact silent leaf front
      · exact (answers leaf back).symm.trans (none leaf back)
    · obtain ⟨empty, emptyRest⟩ := append_eq_nil_iff.mp unasked
      rcases mem_append.mp mem with front | back
      · exact full empty leaf front
      · rw [empty] at grown
        have stays := (grown.paths leaf (leaves leaf back).within (leaves leaf back).ne_nil).resolve_right fun new => nomatch new.2
        exact stays.symm.trans_ne (fullRest emptyRest leaf back)
  · rw [answers leaf mem] at hf
    refine .inr ⟨added, leaf, mem_append_right _ mem, data, hf, ?_⟩
    have there : fs.blockAt inode leaf ≠ 0 := fun miss => by
      rw [answerAt, if_pos miss] at hf
      cases hf
    rw [written, grown.stays (leaves leaf mem).within (leaves leaf mem).ne_nil there]

theorem Walks.goOn {next : Inode → EXT2FileSystem → Walk} {onwards : Inode → EXT2FileSystem → Prop}
    (begins : Walks entry abort part paths known fs inode walk) (wider : ∀ path, part path → more path)
    (continues : ∀ inode' middle, middle.faults = [] → middle.blockSize = fs.blockSize →
      Walks entry abort more rest (onwards inode' middle) middle inode' (next inode' middle))
    (arrives : ∀ inode' middle answers, known → Grown part fs middle inode inode' answers → onwards inode' middle)
    (leaves : ∀ leaf ∈ rest, Leaf fs.entriesPerBlock leaf) :
    Walks entry abort more (paths ++ rest) known fs inode (walk.goOn next) := by
  obtain ⟨answers, ran, aborts, scans⟩ := begins
  obtain ⟨walked, inode', after⟩ := walk
  cases walked with
  | aborted => exact ⟨answers, ran, fun _ => aborts rfl, fun sane => absurd rfl sane⟩
  | added =>
    refine ⟨answers, ran, fun bad => (nomatch bad), fun sane isKnown wellFormed fresh => ?_⟩
    exact (scans sane isKnown wellFormed fresh).mono wider (subset_append_left _ _) fun eq => nomatch eq
  | goesOn =>
    refine Walks.after ran (fun isKnown wellFormed fresh => ?_) (continues inode' after ran.sound ran.size) leaves
    obtain ⟨middle, _, grown, ⟨_, eq, silent, full⟩ | ⟨added, _⟩⟩ := scans (fun bad => nomatch bad) isKnown wellFormed fresh
    · rw [← eq] at grown
      exact ⟨grown.mono wider, arrives inode' after _ isKnown grown, silent, full⟩
    · exact nomatch added

theorem addInBlock_walks (sound : fs.faults = []) {blockNum : Nat} {path : List Nat} (nz : blockNum ≠ 0) :
    Walks entry abort part [path] (fs.blockAt inode path = blockNum) fs inode (fs.addInBlock entry blockNum inode) := by
  unfold addInBlock tryAddInBlock
  rw [readWords_succeeds sound nz]
  dsimp only
  cases room : fs.entryAdded entry (fs.words blockNum) with
  | none =>
    refine ⟨[], .refl sound, fun bad => (nomatch bad), fun _ h wellFormed _ => ⟨fs, .refl sound, .same wellFormed rfl rfl rfl, .inl ⟨rfl, rfl, ?_, ?_⟩⟩⟩
    · intro leaf mem
      rw [mem_singleton.mp mem, answerAt, h, room]
      exact ite_self _
    · grind
  | some data =>
    change Walks entry abort part [path] _ fs inode (if (fs.writeWords blockNum (wordView data)).1 = true then .added else .goesOn, inode,
      (fs.writeWords blockNum (wordView data)).2)
    rw [writeWords_succeeds sound nz]
    refine ⟨[], Lends.setWords (.refl sound) _ _, fun bad => (by cases bad), fun _ h wellFormed _ =>
      ⟨fs, .refl sound, .same wellFormed rfl rfl rfl, .inr ⟨rfl, path, .head _, data, ?_, ?_⟩⟩⟩
    · rw [answerAt, h, if_neg nz, room]
    · rw [h]

theorem initBlock_succeeds (sound : fs.faults = []) {blockNum : Nat} (zeroBuf : Bool) (nz : blockNum ≠ 0) :
    fs.initBlock zeroBuf blockNum = (true, fs.setWords blockNum fun _ => 0) := by
  unfold initBlock
  cases zeroBuf with
  | true => exact writeWords_succeeds sound nz _
  | false =>
    rw [if_neg (by decide), request_succeeds sound]
    exact writeWords_succeeds sound nz _

theorem published {slot table new : Nat} {path : List Nat} {ptrs : Nat → Nat} (ran : Lends fs middle [new]) (words : middle.words = fs.words)
    (isNew : new ≠ 0) (within : Within fs.entriesPerBlock (slot :: path)) (below : path ≠ []) (nz : table ≠ 0)
    (h : fs.blockAt inode path = table) (read : ptrs = fs.words table) (miss : ptrs slot = 0) (hin : part path)
    (wellFormed : fs.WellFormed inode) (fresh : Fresh fs inode (got [new])) (eq : inode'.iBlock = inode.iBlock) :
    Grown part fs ((middle.setWords new fun _ => 0).setWords table (update ptrs slot new)) inode inode' [new] ∧
      ((middle.setWords new fun _ => 0).setWords table (update ptrs slot new)).blockAt inode' (slot :: path) = new := by
  rw [got_of_ne isNew] at fresh
  have hr := (reach_iff below nz).mpr h
  have ne : table ≠ new := fun eq =>
    fresh.away new (.head _) path (within_closed _ _ within) (eq ▸ hr)
  have plants := @plants_slot fs middle inode slot table new words (read ▸ miss) isNew ne
  have swapped : (middle.setWords new fun _ => 0).setWords table (update ptrs slot new) =
      (middle.setWords table (update (fs.words table) slot new)).setWords new fun _ => 0 := by
    unfold setWords
    rw [read, Function.update_comm ne.symm]
  have cells : ∀ after : EXT2FileSystem, after.cells inode' = after.cells inode := fun after => cells_congr eq
  rw [swapped]
  refine Grown.planted wellFormed fresh ran.size within hr ?_ fun _ => hin
  rw [cells]
  exact plants

theorem fillSlots_walks {visit : Nat → Inode → EXT2FileSystem → Walk} {zeroBuf checked last : Bool} {table level entries : Nat}
    {path : List Nat} (above : Above entries (level + 1) path) (nz : table ≠ 0)
    (visits : ∀ (fs : EXT2FileSystem) (inode : Inode) (blockNum slot : Nat), fs.faults = [] → fs.entriesPerBlock = entries →
      blockNum ≠ 0 → slot < entries → Walks entry abort (slot :: path <:+ ·) (pathsUnder entries level (slot :: path))
        (fs.blockAt inode (slot :: path) = blockNum) fs inode (visit blockNum inode fs))
    {slots : List Nat} (lt : ∀ slot ∈ slots, slot < entries) (sound : fs.faults = []) (size : fs.entriesPerBlock = entries)
    (ptrs : Nat → Nat) (inode : Inode) :
    Walks entry abort (path <:+ ·) (slots.flatMap fun slot => pathsUnder entries level (slot :: path))
      (fs.blockAt inode path = table ∧ ptrs = fs.words table) fs inode
      (fillSlots zeroBuf visit checked last table slots ptrs inode fs) := by
  induction slots generalizing fs ptrs inode with
  | nil =>
    exact .nothing sound
  | cons slot slots ih =>
    have hin := lt slot (.head _)
    have more := fun other mem => lt other (.tail _ mem)
    have within : Within fs.entriesPerBlock (slot :: path) := size ▸ (above.below hin).within
    have leaves : ∀ leaf ∈ slots.flatMap fun slot => pathsUnder entries level (slot :: path), Leaf fs.entriesPerBlock leaf := by
      intro leaf mem
      obtain ⟨other, otherMember, under⟩ := mem_flatMap.mp mem
      exact size ▸ (above.below (more other otherMember)).reaches under
    have h : ∀ leaf ∈ pathsUnder entries level (slot :: path), Leaf fs.entriesPerBlock leaf :=
      fun leaf under => size ▸ (above.below hin).reaches under
    have wider : ∀ other, slot :: path <:+ other → path <:+ other := fun other under => (suffix_cons slot path).trans under
    have out : ¬slot :: path <:+ path := fun under => absurd under.length_le (by simp)
    have pathIn : Within fs.entriesPerBlock path := size ▸ above.within
    -- a walk below the slot leaves the pointer block alone
    have stays : ∀ {pre after : EXT2FileSystem} {inode inode' : Inode} {answers : List Nat}, pre.entriesPerBlock = entries →
        pre.blockAt inode path = table → Grown (slot :: path <:+ ·) pre after inode inode' answers →
        after.blockAt inode' path = table ∧ pre.words table = after.words table := by
      intro pre after inode inode' answers eq h grown
      have there : pre.blockAt inode path ≠ 0 := h.trans_ne nz
      have pathIn : Within pre.entriesPerBlock path := eq ▸ above.within
      have kept := grown.kept path pathIn above.ne_nil (fun under => absurd under out) there
      rw [h] at kept
      exact ⟨(grown.stays pathIn above.ne_nil there).trans h, kept.symm⟩
    have placed : ∀ {after : EXT2FileSystem} {inode : Inode}, after.blockAt inode path = table ∧ ptrs = after.words table →
        after.blockAt inode (slot :: path) = ptrs slot := by
      rintro after inode ⟨h, rfl⟩
      have hr := (reach_iff above.ne_nil nz).mpr h
      exact blockAt_cons hr slot
    rw [fillSlots, flatMap_cons]
    split
    case isTrue named =>
      have begins := (visits fs inode (ptrs slot) slot sound size named hin).imp placed
      have continues : ∀ inode' middle, middle.faults = [] → middle.blockSize = fs.blockSize →
          Walks entry abort (path <:+ ·) (slots.flatMap fun slot => pathsUnder entries level (slot :: path))
            (middle.blockAt inode' path = table ∧ ptrs = middle.words table) middle inode'
            (fillSlots zeroBuf visit checked last table slots ptrs inode' middle) :=
        fun inode' middle isSound eq => ih more isSound (size ▸ congrArg (· / 4) eq) ptrs inode'
      refine begins.goOn wider continues (fun inode' middle answers known grown => ?_) leaves
      obtain ⟨there, content⟩ := stays size known.1 grown
      exact ⟨there, known.2.trans content⟩
    case isFalse empty =>
      have miss := not_ne_iff.mp empty
      obtain ⟨new, middle, answer, ran, words, middleSize⟩ := allocateBlock_lent sound size
      rw [answer]
      dsimp only
      split
      case isTrue zero =>
        refine .after ran (fun known wellFormed _ => ?_) (ih more ran.sound middleSize ptrs inode) leaves
        refine ⟨?_, ⟨(blockAt_congr words rfl path).trans known.1, known.2.trans (congrFun words table).symm⟩, fun leaf under => ?_,
          fun none => nomatch none⟩
        · rw [zero]
          exact .same wellFormed words ran.size rfl
        · exact if_pos (blockAt_missing (cons_ne_nil _ _) ((placed known).trans miss) (suffix_of_mem under))
      case isFalse isNew =>
        rw [initBlock_succeeds ran.sound zeroBuf isNew]
        have written : (middle.setWords new fun _ => 0).writeWords table (update ptrs slot new) =
            (true, (middle.setWords new fun _ => 0).setWords table (update ptrs slot new)) :=
          @writeWords_succeeds (middle.setWords new fun _ => 0) ran.sound table nz _
        rw [if_neg fun both => nomatch both.2]
        simp only [written]
        rw [if_neg (show ¬true = false by decide)]
        have content : ((middle.setWords new fun _ => 0).setWords table (update ptrs slot new)).words table =
            update ptrs slot new := update_self ..
        have planting : Lends fs ((middle.setWords new fun _ => 0).setWords table (update ptrs slot new)) [new] :=
          (ran.setWords _ _).setWords _ _
        have publishes := fun (known : fs.blockAt inode path = table ∧ ptrs = fs.words table) (wellFormed : fs.WellFormed inode)
            (fresh : Fresh fs inode (got [new])) => @published (path <:+ ·) fs middle inode (inode.addBlock fs.blockSize) slot table new path
          ptrs ran words isNew within above.ne_nil nz known.1 known.2 miss suffix_rfl wellFormed fresh rfl
        change Walks entry abort _ _ _ fs inode (Walk.goOn (visit new (inode.addBlock middle.blockSize) _) _)
        rw [ran.size]
        generalize (middle.setWords new fun _ => 0).setWords table (update ptrs slot new) = planted at publishes content planting ⊢
        have plantedSize : planted.entriesPerBlock = entries := size ▸ congrArg (· / 4) planting.size
        have plantedLeaves : ∀ leaf ∈ slots.flatMap fun slot => pathsUnder entries level (slot :: path), Leaf planted.entriesPerBlock leaf :=
          fun leaf mem => (plantedSize.trans size.symm) ▸ leaves leaf mem
        have begins := (visits planted (inode.addBlock fs.blockSize) new slot planting.sound plantedSize isNew hin).imp
          (fun known : planted.blockAt (inode.addBlock fs.blockSize) (slot :: path) = new ∧
            planted.blockAt (inode.addBlock fs.blockSize) path = table => known.1)
        have continues : ∀ inode' after, after.faults = [] → after.blockSize = planted.blockSize →
            Walks entry abort (path <:+ ·) (slots.flatMap fun slot => pathsUnder entries level (slot :: path))
              (after.blockAt inode' path = table ∧ update ptrs slot new = after.words table) after inode'
              (fillSlots zeroBuf visit checked last table slots (update ptrs slot new) inode' after) :=
          fun inode' after isSound eq => ih more isSound (plantedSize ▸ congrArg (· / 4) eq) (update ptrs slot new) inode'
        have onward := begins.goOn wider continues (fun inode' after answers known grown => by
          obtain ⟨there, kept⟩ := stays plantedSize known.2 grown
          exact ⟨there, content.symm.trans kept⟩) plantedLeaves
        rw [← nil_append (pathsUnder entries level (slot :: path) ++ _)]
        refine Walks.after planting (fun known wellFormed fresh => ?_) onward fun leaf mem => ?_
        · obtain ⟨grown, there⟩ := publishes known wellFormed fresh
          rw [got_of_ne isNew]
          exact ⟨grown, ⟨there, (grown.stays pathIn above.ne_nil (known.1.trans_ne nz)).trans known.1⟩, fun _ none => (nomatch none),
            fun none => nomatch none⟩
        · grind

theorem fill_walks {zeroBuf checked : Bool} {level entries blockNum : Nat} {path : List Nat} (above : Above entries level path)
    (sound : fs.faults = []) (size : fs.entriesPerBlock = entries) (nz : blockNum ≠ 0) (inode : Inode) :
    Walks entry abort (path <:+ ·) (pathsUnder entries level path) (fs.blockAt inode path = blockNum) fs inode
      (fill entry zeroBuf checked level blockNum inode fs) := by
  induction level generalizing fs blockNum path inode with
  | zero => exact addInBlock_walks sound nz
  | succ level ih =>
    rw [fill, readWords_succeeds sound nz]
    dsimp only
    rw [size]
    refine (fillSlots_walks above nz ?_ (fun slot => mem_range.mp) sound size _ inode).imp fun h => ⟨h, rfl⟩
    exact fun fs inode blockNum slot isSound eq there hin => ih (above.below hin) isSound eq there inode

/-- A walk goes on below a fresh root. -/
theorem Walks.planted {new root : Nat} (ran : Lends fs middle [new]) (words : middle.words = fs.words) (isRoot : root < 15) (isNew : new ≠ 0)
    (miss : inode.iBlock root = 0) (onward : Walks entry abort (fun _ => True) rest True (middle.setWords new fun _ => 0)
      ((inode.setBlock root new).addBlock middle.blockSize) walk) (leaves : ∀ leaf ∈ rest, Leaf fs.entriesPerBlock leaf) :
    Walks entry abort (fun _ => True) rest True fs inode walk := by
  have planting : Lends fs (middle.setWords new fun _ => 0) [new] := ran.setWords _ _
  rw [← nil_append rest]
  refine Walks.after planting (fun _ wellFormed fresh => ?_) onward leaves
  rw [got_of_ne isNew] at fresh ⊢
  have plants : Plants named (fs.cells inode) ((middle.setWords new fun _ => 0).cells ((inode.setBlock root new).addBlock middle.blockSize))
    none (some new) root := plants_root words miss isNew rfl
  have within : Within fs.entriesPerBlock [root] := (above_root isRoot).within
  exact ⟨(Grown.planted wellFormed fresh planting.size within rfl plants fun below => absurd rfl below).1, trivial,
    fun _ none => (nomatch none), fun none => nomatch none⟩

theorem addUnder_walks {zeroBuf : Bool} {entries : Nat} {roots : List Nat} (known : ∀ root ∈ roots, root < 15) (sound : fs.faults = [])
    (size : fs.entriesPerBlock = entries) (inode : Inode) :
    Walks entry abort (fun _ => True) (roots.flatMap fun root => pathsUnder entries (root - 11) [root]) True fs inode
      (addUnder entry zeroBuf roots inode fs) := by
  induction roots generalizing fs inode with
  | nil => exact .nothing sound
  | cons root roots ih =>
    have isRoot := known root (.head _)
    have more := fun other mem => known other (.tail _ mem)
    have leaves : ∀ leaf ∈ roots.flatMap fun root => pathsUnder entries (root - 11) [root], Leaf entries leaf := by
      intro leaf mem
      obtain ⟨other, otherMember, under⟩ := mem_flatMap.mp mem
      exact (above_root (more other otherMember)).reaches under
    have h : ∀ leaf ∈ pathsUnder entries (root - 11) [root], Leaf entries leaf := fun leaf => (above_root isRoot).reaches
    have continues : ∀ (pre : EXT2FileSystem) (inode : Inode), pre.faults = [] → pre.entriesPerBlock = entries → inode.iBlock root ≠ 0 →
        Walks entry abort (fun _ => True) (pathsUnder entries (root - 11) [root] ++ roots.flatMap fun root => pathsUnder entries (root - 11) [root])
          True pre inode ((fill entry zeroBuf (root == 12) (root - 11) (inode.iBlock root) inode pre).goOn fun inode fs =>
            addUnder entry zeroBuf roots inode fs) := by
      intro pre inode isSound eq there
      have begins : Walks entry abort ([root] <:+ ·) (pathsUnder entries (root - 11) [root]) True pre inode
          (fill entry zeroBuf (root == 12) (root - 11) (inode.iBlock root) inode pre) :=
        (fill_walks (above_root isRoot) isSound eq there inode).imp fun _ => blockAt_root pre inode root
      have onward : ∀ inode' middle, middle.faults = [] → middle.blockSize = pre.blockSize →
          Walks entry abort (fun _ => True) (roots.flatMap fun root => pathsUnder entries (root - 11) [root]) True middle inode'
            (addUnder entry zeroBuf roots inode' middle) :=
        fun inode' middle isSound same' => ih more isSound (eq ▸ congrArg (· / 4) same') inode'
      exact begins.goOn (fun _ _ => trivial) onward (fun _ _ _ _ _ => trivial) (eq ▸ leaves)
    rw [addUnder, flatMap_cons]
    unfold plantRoot
    by_cases miss : inode.iBlock root = 0
    · rw [if_neg (not_not.mpr miss)]
      obtain ⟨new, middle, answer, ran, words, middleSize⟩ := allocateBlock_lent sound size
      rw [answer]
      dsimp only
      by_cases zero : new = 0
      · rw [if_pos zero, if_pos miss]
        refine .after ran (fun _ wellFormed _ => ⟨?_, trivial, fun leaf under => ?_, fun none => nomatch none⟩) (ih more ran.sound middleSize inode) (size ▸ leaves)
        · rw [zero]
          exact .same wellFormed words ran.size rfl
        · exact if_pos (blockAt_missing (cons_ne_nil _ _) ((blockAt_root fs inode root).trans miss) (suffix_of_mem under))
      · rw [if_neg zero, initBlock_succeeds ran.sound _ zero]
        have slot : ((inode.setBlock root new).addBlock middle.blockSize).iBlock root = new := update_self ..
        rw [show (middle.setWords new fun _ => 0).blockSize = middle.blockSize from rfl, if_neg (slot.trans_ne zero)]
        have onward := continues (middle.setWords new fun _ => 0) ((inode.setBlock root new).addBlock middle.blockSize) ran.sound middleSize
          (slot.trans_ne zero)
        refine Walks.planted ran words isRoot zero miss onward fun leaf mem => ?_
        grind
    · grind

/-- Where the walk over the data blocks of the inode is, without the slots to clean up. -/
def direct (walk : Walked × List Nat × Inode × EXT2FileSystem) : Walk := (walk.1, walk.2.2)

theorem direct_goOn (walk : Walk) (alloc : List Nat) (rest : Inode → EXT2FileSystem → Walked × List Nat × Inode × EXT2FileSystem) :
    direct (match walk with
      | (.goesOn, inode, fs) => rest inode fs
      | (ending, inode, fs) => (ending, alloc, inode, fs)) = walk.goOn fun inode fs => direct (rest inode fs) := by
  obtain ⟨walked, inode', after⟩ := walk
  cases walked <;> rfl

theorem addDirect_walks {zeroBuf : Bool} {entries : Nat} {slots : List Nat} (isDirect : ∀ slot ∈ slots, slot < 12) (sound : fs.faults = [])
    (size : fs.entriesPerBlock = entries) (alloc : List Nat) (inode : Inode) :
    Walks entry True (fun _ => True) (slots.flatMap fun slot => pathsUnder entries (slot - 11) [slot]) True fs inode
      (direct (addDirect entry zeroBuf slots alloc inode fs)) := by
  induction slots generalizing fs alloc inode with
  | nil => exact .nothing sound
  | cons slot slots ih =>
    have lt := isDirect slot (.head _)
    have more := fun other mem => isDirect other (.tail _ mem)
    have leaves : ∀ leaf ∈ slots.flatMap fun slot => pathsUnder entries (slot - 11) [slot], Leaf entries leaf := by
      intro leaf mem
      obtain ⟨other, otherMember, under⟩ := mem_flatMap.mp mem
      exact (above_root (Nat.lt_trans (more other otherMember) (by decide))).reaches under
    have isLeaf : Leaf entries [slot] := ⟨[], slot, rfl, by omega, by rw [length_nil]; omega, fun _ none => nomatch none⟩
    have one : pathsUnder entries (slot - 11) [slot] = [[slot]] := by
      rw [show slot - 11 = 0 by omega]
      rfl
    have continues : ∀ (pre : EXT2FileSystem) (inode : Inode) (alloc : List Nat), pre.faults = [] → pre.entriesPerBlock = entries →
        inode.iBlock slot ≠ 0 → Walks entry True (fun _ => True) ([[slot]] ++ slots.flatMap fun slot => pathsUnder entries (slot - 11) [slot])
          True pre inode ((pre.addInBlock entry (inode.iBlock slot) inode).goOn fun inode fs =>
            direct (addDirect entry zeroBuf slots alloc inode fs)) := by
      intro pre inode alloc isSound eq there
      have begins : Walks entry True (fun _ => True) [[slot]] True pre inode (pre.addInBlock entry (inode.iBlock slot) inode) :=
        (addInBlock_walks isSound there).imp fun _ => blockAt_root pre inode slot
      have onward : ∀ inode' middle, middle.faults = [] → middle.blockSize = pre.blockSize →
          Walks entry True (fun _ => True) (slots.flatMap fun slot => pathsUnder entries (slot - 11) [slot]) True middle inode'
            (direct (addDirect entry zeroBuf slots alloc inode' middle)) :=
        fun inode' middle isSound same' => ih more isSound (eq ▸ congrArg (· / 4) same') alloc inode'
      exact begins.goOn (fun _ _ => trivial) onward (fun _ _ _ _ _ => trivial) (eq ▸ leaves)
    rw [addDirect, flatMap_cons, one]
    by_cases miss : inode.iBlock slot = 0
    · rw [if_neg (not_not.mpr miss)]
      obtain ⟨new, middle, answer, ran, words, middleSize⟩ := allocateBlock_lent sound size
      rw [answer]
      dsimp only
      by_cases zero : new = 0
      · rw [if_pos zero]
        exact ⟨[new], ran, fun _ => trivial, fun sane => absurd rfl sane⟩
      · rw [if_neg zero, initBlock_succeeds ran.sound _ zero]
        have filled : ((inode.setBlock slot new).addBlock middle.blockSize).iBlock slot = new := update_self ..
        have onward := continues (middle.setWords new fun _ => 0) ((inode.setBlock slot new).addBlock middle.blockSize) (alloc ++ [slot])
          ran.sound middleSize (filled.trans_ne zero)
        rw [filled] at onward
        refine direct_goOn _ _ _ ▸ Walks.planted ran words (Nat.lt_trans lt (by decide)) zero miss onward fun leaf mem => ?_
        rcases mem_append.mp mem with first | later
        · exact mem_singleton.mp first ▸ size ▸ isLeaf
        · exact size ▸ leaves leaf later
    · rw [if_pos miss]
      exact direct_goOn _ _ _ ▸ continues fs inode alloc sound size miss

theorem leafPaths_eq (entries : Nat) : leafPaths entries = ((range 12).flatMap fun slot => pathsUnder entries (slot - 11) [slot]) ++
    [12, 13, 14].flatMap fun root => pathsUnder entries (root - 11) [root] := by
  rw [← flatMap_append]
  rfl

theorem addToBlocks_walks {zeroBuf : Bool} (sound : fs.faults = []) (inode : Inode) :
    Walks entry True (fun _ => True) (leafPaths fs.entriesPerBlock) True fs inode (direct (fs.addToBlocks entry zeroBuf inode)) := by
  have begins : Walks entry True (fun _ => True) ((range 12).flatMap fun slot => pathsUnder fs.entriesPerBlock (slot - 11) [slot]) True fs
      inode (direct (addDirect entry zeroBuf (range 12) [] inode fs)) :=
    addDirect_walks (fun slot => mem_range.mp) sound rfl [] inode
  have continues : ∀ inode' middle, middle.faults = [] → middle.blockSize = fs.blockSize →
      Walks entry True (fun _ => True) ([12, 13, 14].flatMap fun root => pathsUnder fs.entriesPerBlock (root - 11) [root]) True middle inode'
        (addUnder entry zeroBuf [12, 13, 14] inode' middle) :=
    fun inode' middle isSound eq => addUnder_walks (by decide) isSound (congrArg (· / 4) eq) inode'
  have whole := begins.goOn (fun _ _ => trivial) continues (fun _ _ _ _ _ => trivial) fun leaf mem => mem_leafPaths.mp <| by
    rw [leafPaths_eq]
    exact mem_append_right _ mem
  rw [leafPaths_eq]
  unfold addToBlocks
  generalize addDirect entry zeroBuf (range 12) [] inode fs = walk at whole ⊢
  obtain ⟨walked, alloc, inode', middle⟩ := walk
  cases walked <;> exact whole

end

end RosKernel.Ext2
