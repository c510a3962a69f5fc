import RosKernel.Ext2.DirGrowth

/-! What `AddEntryToDirectory` leaves when it returns false.

The requests that a walk makes can fail one by one. A block that is taken for a missing pointer stays
taken when everything after that fails, since the cleanup fails as well.
-/

set_option autoImplicit false

namespace RosKernel.Ext2

open EXT2FileSystem List

/-- The coming requests can be answered so that a run ends like this. -/
def Led {α : Type} (run : EXT2FileSystem → α) (fs : EXT2FileSystem) (ends : EXT2FileSystem → α) (after : EXT2FileSystem) : Prop :=
  ∃ answers, ∀ rest, run (fs.withFaults (answers ++ rest)) = ends (after.withFaults rest)

section

variable {α β : Type} {run ends : EXT2FileSystem → α} {next last : EXT2FileSystem → β} {fs middle after : EXT2FileSystem}

theorem Led.here (ends : EXT2FileSystem → α) (fs : EXT2FileSystem) : Led ends fs ends fs := ⟨[], fun _ => rfl⟩

theorem Led.bind {next : α → β} (first : Led run fs ends middle) (snd : Led (fun fs => next (ends fs)) middle last after) :
    Led (fun fs => next (run fs)) fs last after := by
  obtain ⟨ans, leads⟩ := first
  obtain ⟨more, onward⟩ := snd
  refine ⟨ans ++ more, fun rest => ?_⟩
  rw [append_assoc]
  exact (congrArg next (leads (more ++ rest))).trans (onward rest)

end

section

variable (fs : EXT2FileSystem) (blockNum : Nat) (data : Nat → Nat)

theorem blockRequest_fails : Led (fun fs => fs.blockRequest blockNum) fs (fun fs => (false, fs)) fs := by
  by_cases zero : blockNum = 0
  · exact ⟨[], fun _ => if_pos zero⟩
  · exact ⟨[true], fun _ => if_neg zero⟩

theorem blockRequest_passes {blockNum : Nat} (nz : blockNum ≠ 0) :
    Led (fun fs => fs.blockRequest blockNum) fs (fun fs => (true, fs)) fs := ⟨[false], fun _ => if_neg nz⟩

theorem readWords_fails : Led (fun fs => fs.readWords blockNum) fs (fun fs => (none, fs)) fs :=
  @Led.bind _ _ _ _ _ _ fs fs (fun asked => (if asked.1 then some (asked.2.words blockNum) else none, asked.2))
    (blockRequest_fails fs blockNum) (.here _ fs)

theorem readWords_passes {blockNum : Nat} (nz : blockNum ≠ 0) :
    Led (fun fs => fs.readWords blockNum) fs (fun fs => (some (fs.words blockNum), fs)) fs :=
  @Led.bind _ _ _ _ _ _ fs fs (fun asked => (if asked.1 then some (asked.2.words blockNum) else none, asked.2))
    (blockRequest_passes fs nz) (.here _ fs)

theorem writeWords_fails : Led (fun fs => fs.writeWords blockNum data) fs (fun fs => (false, fs)) fs :=
  @Led.bind _ _ _ _ _ _ fs fs (fun asked => if asked.1 then (true, asked.2.setWords blockNum data) else (false, asked.2))
    (blockRequest_fails fs blockNum) (.here _ fs)

theorem initBlock_fails (zeroBuf : Bool) : ∃ ready, Led (fun fs => fs.initBlock zeroBuf blockNum) fs (fun fs => (ready, fs)) fs := by
  cases zeroBuf with
  | true => exact ⟨false, writeWords_fails fs blockNum fun _ => 0⟩
  | false => exact ⟨true, [true], fun _ => rfl⟩

theorem freeBit_fails (group bit : Nat) : Led (fun fs => fs.freeBit group bit) fs (fun fs => (false, fs)) fs := by
  obtain ⟨ans, leads⟩ := blockRequest_fails fs (fs.bgdt group).bgBlockBitmap
  refine ⟨ans, fun rest => ?_⟩
  have asked : (fs.withFaults (ans ++ rest)).blockRequest ((fs.withFaults (ans ++ rest)).bgdt group).bgBlockBitmap =
    (false, fs.withFaults rest) := leads rest
  unfold freeBit
  dsimp only
  rw [asked]
  rfl

theorem freeBlock_fails : Led (fun fs => fs.freeBlock blockNum) fs (fun fs => (false, fs)) (fs.recordFree blockNum) := by
  by_cases zero : blockNum = 0
  · exact ⟨[], fun _ => if_pos zero⟩
  by_cases far : (blockNum - 1) / fs.superblock.sBlocksPerGroup ≥ fs.numBlockGroups
  · exact ⟨[], fun _ => (if_neg zero).trans (if_pos far)⟩
  · obtain ⟨ans, leads⟩ := freeBit_fails (fs.recordFree blockNum) ((blockNum - 1) / fs.superblock.sBlocksPerGroup)
      ((blockNum - 1) % fs.superblock.sBlocksPerGroup)
    exact ⟨ans, fun rest => ((if_neg zero).trans (if_neg far)).trans (leads rest)⟩

theorem allocateInGroup_fails (group : Nat) : Led (fun fs => fs.allocateInGroup group) fs (fun fs => (none, fs)) fs := by
  by_cases zero : (fs.bgdt group).bgFreeBlocksCount = 0
  · exact ⟨[], fun _ => if_pos zero⟩
  · obtain ⟨ans, leads⟩ := blockRequest_fails fs (fs.bgdt group).bgBlockBitmap
    refine ⟨ans, fun rest => (if_neg zero).trans ?_⟩
    have asked : (fs.withFaults (ans ++ rest)).blockRequest ((fs.withFaults (ans ++ rest)).bgdt group).bgBlockBitmap =
      (false, fs.withFaults rest) := leads rest
    dsimp only
    rw [asked]
    rfl

omit fs in
theorem Led.allocated {fs middle after : EXT2FileSystem} {groups : List Nat} {group blockNum : Nat} {answer : Option Nat}
    (first : Led (fun fs => fs.allocateInGroup group) fs (fun fs => (answer, fs)) middle)
    (onward : Led (fun fs => answer.elim (allocateFrom groups fs) fun blockNum => (blockNum, fs)) middle (fun fs => (blockNum, fs)) after) :
    Led (fun fs => allocateFrom (group :: groups) fs) fs (fun fs => (blockNum, fs)) after := by
  obtain ⟨ans, asked⟩ := first
  obtain ⟨more, leads⟩ := onward
  refine ⟨ans ++ more, fun rest => ?_⟩
  dsimp only at asked leads ⊢
  rw [append_assoc, allocateFrom, asked, ← leads]
  cases answer <;> rfl

theorem allocateFrom_skips {groups : List Nat} {group blockNum : Nat} {after : EXT2FileSystem}
    (onward : Led (fun fs => allocateFrom groups fs) fs (fun fs => (blockNum, fs)) after) :
    Led (fun fs => allocateFrom (group :: groups) fs) fs (fun fs => (blockNum, fs)) after :=
  (allocateInGroup_fails fs group).allocated onward

theorem allocateFrom_fails (groups : List Nat) : Led (fun fs => allocateFrom groups fs) fs (fun fs => (0, fs)) fs := by
  induction groups with
  | nil => exact .here _ fs
  | cons group groups ih => exact allocateFrom_skips fs ih

theorem allocateBlock_fails : Led (fun fs => fs.allocateBlock) fs (fun fs => (0, fs)) (fs.recordTake 0) :=
  @Led.bind _ _ _ _ _ _ fs _ (fun asked => (asked.1, asked.2.recordTake asked.1)) (allocateFrom_fails fs (range fs.numBlockGroups))
    ⟨[], fun _ => rfl⟩

variable {fs} {group bit : Nat}

theorem allocateInGroup_passes (offers : fs.Offers group bit) : ∃ first, fs.Offers group first ∧
    Led (fun fs => fs.allocateInGroup group) fs (fun given => (some (answerFor fs group first), given)) (fs.takeBit group first) := by
  obtain ⟨read, reads⟩ := blockRequest_passes fs offers.placed
  obtain ⟨write, writes⟩ := blockRequest_passes fs offers.placed
  cases hf : scanBitmap (fs.bitmaps (fs.bgdt group).bgBlockBitmap) fs.superblock.sBlocksPerGroup fs.bitmapBytes with
  | none =>
    have set := scanBitmap_none hf offers.scanned offers.inside
    exact absurd set (Bool.eq_false_iff.mp offers.clear)
  | some first =>
    obtain ⟨scanned, hin, clear⟩ := scanBitmap_some hf
    refine ⟨first, ⟨offers.counted, offers.placed, hin, scanned, clear⟩, read ++ write, fun rest => (if_neg offers.counted).trans ?_⟩
    have asked : (fs.withFaults ((read ++ write) ++ rest)).blockRequest ((fs.withFaults ((read ++ write) ++ rest)).bgdt group).bgBlockBitmap =
      (true, fs.withFaults (write ++ rest)) := append_assoc .. ▸ reads (write ++ rest)
    have ans : (fs.withFaults (write ++ rest)).blockRequest ((fs.withFaults ((read ++ write) ++ rest)).bgdt group).bgBlockBitmap =
      (true, fs.withFaults rest) := writes rest
    have scan : scanBitmap ((fs.withFaults (write ++ rest)).bitmaps ((fs.withFaults ((read ++ write) ++ rest)).bgdt group).bgBlockBitmap)
      (fs.withFaults (write ++ rest)).superblock.sBlocksPerGroup (fs.withFaults (write ++ rest)).bitmapBytes = some first := hf
    dsimp only
    rw [asked]
    rw [if_neg (show ¬true = false by decide), scan]
    rw [ans]
    rfl

theorem allocateFrom_passes {groups : List Nat} (mem : group ∈ groups) (offers : fs.Offers group bit) : ∃ first, fs.Offers group first ∧
    Led (fun fs => allocateFrom groups fs) fs (fun given => (answerFor fs group first, given)) (fs.takeBit group first) := by
  induction groups with
  | nil => exact absurd mem not_mem_nil
  | cons head groups ih =>
    rcases mem_cons.mp mem with rfl | later
    · obtain ⟨first, offered, ht⟩ := allocateInGroup_passes offers
      exact ⟨first, offered, ht.allocated (.here (fun given => (answerFor fs group first, given)) _)⟩
    · obtain ⟨first, offered, onward⟩ := ih later
      exact ⟨first, offered, allocateFrom_skips fs onward⟩

end

/-- A bit that was clear is set. -/
def Loses (fs after : EXT2FileSystem) : Prop := ∃ group < fs.numBlockGroups, ∃ bit, fs.marked group bit = false ∧ after.marked group bit = true

/-- `AllocateBlock` can have a block to give. -/
def Gives (fs : EXT2FileSystem) : Prop :=
  ∃ new after, new ≠ 0 ∧ Loses fs after ∧ Led (fun fs => fs.allocateBlock) fs (fun fs => (new, fs)) after

/-- A walk can go on with nothing done. -/
def Passes (fs : EXT2FileSystem) (inode : Inode) (walk : EXT2FileSystem → Walk) : Prop := Led walk fs (fun fs => (.goesOn, inode, fs)) fs

/-- A walk can be over without the entry added, and with a bit lost. -/
def Leaks (base fs : EXT2FileSystem) (walk : EXT2FileSystem → Walk) : Prop :=
  ∃ walked inode after, walked ≠ .added ∧ Loses base after ∧ Led walk fs (fun fs => (walked, inode, fs)) after

section

variable {entry : NewEntry} {base fs : EXT2FileSystem} {inode : Inode} {walk : EXT2FileSystem → Walk} {next : Inode → EXT2FileSystem → Walk}

theorem gives_of_offers (cnt : fs.Counted) {group bit : Nat} (inGroups : group < fs.numBlockGroups) (clear : bit ∈ fs.clearBits group) :
    Gives fs := by
  have offers := (Lent.refl cnt.mounted cnt.formatted).offers cnt inGroups clear not_mem_nil
  obtain ⟨first, offered, ans, ht⟩ := allocateFrom_passes (mem_range.mpr inGroups) offers
  refine ⟨answerFor fs group first, (fs.takeBit group first).recordTake (answerFor fs group first), ?_, ⟨group, inGroups, first, offered.clear, ?_⟩,
    ans, fun rest => congrArg (fun asked : Nat × EXT2FileSystem => (asked.1, asked.2.recordTake asked.1)) (ht rest)⟩
  · rw [answerFor_eq cnt.mounted inGroups offered.inside]
    exact Nat.succ_ne_zero _
  · change (fs.takeBit group first).marked group first = true
    rw [marked_takeBit cnt.formatted inGroups inGroups]
    simp

theorem Leaks.goOn (begins : Leaks base fs walk) (continues : ∀ inode middle, Loses base middle → Leaks base middle (next inode)) :
    Leaks base fs fun fs => (walk fs).goOn next := by
  obtain ⟨walked, inode, middle, sane, lost, leads⟩ := begins
  cases walked with
  | added => exact absurd rfl sane
  | aborted => exact ⟨.aborted, inode, middle, sane, lost, @Led.bind _ _ _ _ _ _ middle middle (fun walk => walk.goOn next) leads ⟨[], fun _ => rfl⟩⟩
  | goesOn =>
    obtain ⟨ending, inode', after, sane, lost, onward⟩ := continues inode middle lost
    exact ⟨ending, inode', after, sane, lost, @Led.bind _ _ _ _ _ _ middle after (fun walk => walk.goOn next) leads onward⟩

theorem Passes.goOn (begins : Passes fs inode walk) (continues : Leaks base fs (next inode)) : Leaks base fs fun fs => (walk fs).goOn next := by
  obtain ⟨ending, inode', after, sane, lost, onward⟩ := continues
  exact ⟨ending, inode', after, sane, lost, @Led.bind _ _ _ _ _ _ fs after (fun walk => walk.goOn next) begins onward⟩

theorem addInBlock_passes (fs : EXT2FileSystem) (entry : NewEntry) (blockNum : Nat) (inode : Inode) : Passes fs inode (addInBlock entry · blockNum inode) := by
  obtain ⟨ans, leads⟩ := readWords_fails fs blockNum
  refine ⟨ans, fun rest => ?_⟩
  have asked : (fs.withFaults (ans ++ rest)).readWords blockNum = (none, fs.withFaults rest) := leads rest
  dsimp only
  unfold addInBlock tryAddInBlock
  rw [asked]
  rfl

theorem fill_passes (fs : EXT2FileSystem) (entry : NewEntry) (zeroBuf checked : Bool) (level blockNum : Nat) (inode : Inode) :
    Passes fs inode (fill entry zeroBuf checked level blockNum inode) := by
  cases level with
  | zero => exact addInBlock_passes fs entry blockNum inode
  | succ level =>
    obtain ⟨ans, leads⟩ := readWords_fails fs blockNum
    refine ⟨ans, fun rest => ?_⟩
    have asked : (fs.withFaults (ans ++ rest)).readWords blockNum = (none, fs.withFaults rest) := leads rest
    rw [fill, asked]

variable {visit : Nat → Inode → EXT2FileSystem → Walk} {zeroBuf checked last : Bool} {table : Nat}

theorem fillSlots_lost (passes : ∀ fs blockNum inode, Passes fs inode (visit blockNum inode)) (slots : List Nat) (ptrs : Nat → Nat)
    (inode : Inode) (lost : Loses base fs) : Leaks base fs (fillSlots zeroBuf visit checked last table slots ptrs inode) := by
  induction slots generalizing fs with
  | nil => exact ⟨.goesOn, inode, fs, nofun, lost, .here _ fs⟩
  | cons slot slots ih =>
    by_cases named : ptrs slot ≠ 0
    · have onward : Leaks base fs fun fs => (visit (ptrs slot) inode fs).goOn fun inode fs =>
          fillSlots zeroBuf visit checked last table slots ptrs inode fs := (passes fs (ptrs slot) inode).goOn (ih lost)
      obtain ⟨ending, inode', after, sane, stillLost, ans, leads⟩ := onward
      exact ⟨ending, inode', after, sane, stillLost, ans, fun rest => (if_pos named).trans (leads rest)⟩
    · obtain ⟨ans, refused⟩ := allocateBlock_fails fs
      obtain ⟨ending, inode', after, sane, stillLost, more, leads⟩ := @ih (fs.recordTake 0) lost
      refine ⟨ending, inode', after, sane, stillLost, ans ++ more, fun rest => (if_neg named).trans ?_⟩
      have asked : (fs.withFaults ((ans ++ more) ++ rest)).allocateBlock = (0, (fs.recordTake 0).withFaults (more ++ rest)) :=
        append_assoc .. ▸ refused (more ++ rest)
      rw [asked]
      exact leads rest

theorem fillSlots_loses (gives : Gives fs) (passes : ∀ fs blockNum inode, Passes fs inode (visit blockNum inode)) {slot : Nat} (slots : List Nat)
    {ptrs : Nat → Nat} (inode : Inode) (miss : ptrs slot = 0) :
    Leaks fs fs (fillSlots zeroBuf visit checked last table (slot :: slots) ptrs inode) := by
  obtain ⟨new, middle, isNew, lost, first, ht⟩ := gives
  obtain ⟨ready, snd, cleared⟩ := initBlock_fails middle new zeroBuf
  obtain ⟨third, freed⟩ := freeBlock_fails middle new
  obtain ⟨fourth, unwritten⟩ := writeWords_fails middle table (Function.update ptrs slot new)
  by_cases dropped : checked ∧ ready = false
  · obtain ⟨ending, inode', after, sane, stillLost, more, leads⟩ :=
      @fillSlots_lost fs (middle.recordFree new) visit zeroBuf checked last table passes slots ptrs inode lost
    refine ⟨ending, inode', after, sane, stillLost, first ++ (snd ++ (third ++ more)), fun rest => (if_neg (not_not.mpr miss)).trans ?_⟩
    simp only [append_assoc] at ht cleared freed ⊢
    rw [ht]
    rw [if_neg isNew, cleared]
    rw [if_pos dropped, freed]
    exact leads rest
  · -- the pointer block of data blocks is written a snd time
    cases last with
    | false =>
      refine ⟨.aborted, inode, middle.recordFree new, nofun, lost, first ++ (snd ++ (fourth ++ third)),
        fun rest => (if_neg (not_not.mpr miss)).trans ?_⟩
      simp only [append_assoc] at ht cleared freed unwritten ⊢
      rw [ht]
      rw [if_neg isNew, cleared]
      rw [if_neg dropped, unwritten]
      rw [if_pos rfl, if_neg Bool.false_ne_true, freed]
    | true =>
      obtain ⟨fifth, unrestored⟩ := writeWords_fails middle table (Function.update ptrs slot 0)
      refine ⟨.aborted, inode, middle.recordFree new, nofun, lost, first ++ (snd ++ (fourth ++ (fifth ++ third))),
        fun rest => (if_neg (not_not.mpr miss)).trans ?_⟩
      simp only [append_assoc] at ht cleared freed unwritten unrestored ⊢
      rw [ht]
      rw [if_neg isNew, cleared]
      rw [if_neg dropped, unwritten]
      rw [if_pos rfl, if_pos trivial, unrestored, freed]

theorem fillSlots_leaks (gives : Gives fs) (passes : ∀ fs blockNum inode, Passes fs inode (visit blockNum inode)) {path : List Nat} {entries level : Nat}
    {ptrs : Nat → Nat} (visits : ∀ slot, ptrs slot ≠ 0 → (∃ leaf ∈ pathsUnder entries level (slot :: path), fs.blockAt inode leaf = 0) →
      Leaks fs fs (visit (ptrs slot) inode)) {slots : List Nat}
    (miss : ∃ leaf ∈ slots.flatMap fun slot => pathsUnder entries level (slot :: path), fs.blockAt inode leaf = 0) :
    Leaks fs fs (fillSlots zeroBuf visit checked last table slots ptrs inode) := by
  induction slots with
  | nil =>
    obtain ⟨_, mem, _⟩ := miss
    exact nomatch mem
  | cons slot slots ih =>
    by_cases named : ptrs slot ≠ 0
    case neg => exact fillSlots_loses gives passes slots inode (not_not.mp named)
    have onward : Leaks fs fs fun fs => (visit (ptrs slot) inode fs).goOn fun inode fs =>
        fillSlots zeroBuf visit checked last table slots ptrs inode fs := by
      by_cases h : ∃ leaf ∈ pathsUnder entries level (slot :: path), fs.blockAt inode leaf = 0
      · exact (visits slot named h).goOn fun inode middle => fillSlots_lost passes slots ptrs inode
      · obtain ⟨leaf, mem, empty⟩ := miss
        have later := (mem_append.mp mem).resolve_left fun early => h ⟨leaf, early, empty⟩
        exact (passes fs (ptrs slot) inode).goOn (ih ⟨leaf, later, empty⟩)
    obtain ⟨ending, inode', after, sane, lost, ans, leads⟩ := onward
    exact ⟨ending, inode', after, sane, lost, ans, fun rest => (if_pos named).trans (leads rest)⟩

theorem fill_leaks (gives : Gives fs) {path : List Nat} {level : Nat} (below : path ≠ [])
    (there : fs.blockAt inode path ≠ 0) (miss : ∃ leaf ∈ pathsUnder fs.entriesPerBlock level path, fs.blockAt inode leaf = 0) :
    Leaks fs fs (fill entry zeroBuf checked level (fs.blockAt inode path) inode) := by
  induction level generalizing path with
  | zero =>
    obtain ⟨leaf, mem, empty⟩ := miss
    exact absurd (mem_singleton.mp mem ▸ empty) there
  | succ level ih =>
    have content : ∀ slot, fs.blockAt inode (slot :: path) = fs.words (fs.blockAt inode path) slot :=
      blockAt_cons ((reach_iff below there).mpr rfl)
    obtain ⟨ans, leads⟩ := readWords_passes fs there
    obtain ⟨ending, inode', after, sane, lost, more, onward⟩ := @fillSlots_leaks fs inode _ zeroBuf checked (decide (level = 0)) (fs.blockAt inode path) gives
      (fun fs blockNum inode => fill_passes fs entry zeroBuf checked level blockNum inode) path fs.entriesPerBlock level
      (fs.words (fs.blockAt inode path)) (fun slot named empty => by
        rw [← content] at named ⊢
        exact ih (cons_ne_nil _ _) named empty) _ miss
    refine ⟨ending, inode', after, sane, lost, ans ++ more, fun rest => ?_⟩
    have asked : (fs.withFaults ((ans ++ more) ++ rest)).readWords (fs.blockAt inode path) =
      (some (fs.words (fs.blockAt inode path)), fs.withFaults (more ++ rest)) := append_assoc .. ▸ leads (more ++ rest)
    rw [fill, asked]
    exact onward rest

theorem plantRoot_fails (fs : EXT2FileSystem) (zeroBuf : Bool) {root : Nat} {inode : Inode} (miss : inode.iBlock root = 0) :
    Led (fun fs => fs.plantRoot zeroBuf root inode) fs (fun fs => (inode, fs)) (fs.recordTake 0) := by
  obtain ⟨ans, refused⟩ := allocateBlock_fails fs
  refine ⟨ans, fun rest => (if_neg (not_not.mpr miss)).trans ?_⟩
  dsimp only at refused ⊢
  rw [refused]
  rfl

theorem plantRoot_loses (gives : Gives fs) (zeroBuf : Bool) {root : Nat} (miss : inode.iBlock root = 0) : ∃ inode' after, inode'.iBlock root ≠ 0 ∧
    Loses fs after ∧ Led (fun fs => fs.plantRoot zeroBuf root inode) fs (fun fs => (inode', fs)) after := by
  obtain ⟨new, middle, isNew, lost, first, ht⟩ := gives
  obtain ⟨ready, snd, cleared⟩ := initBlock_fails middle new (zeroBuf && root != 14)
  have planted : ((inode.setBlock root new).addBlock middle.blockSize).iBlock root = new := Function.update_self ..
  refine ⟨(inode.setBlock root new).addBlock middle.blockSize, middle, planted.trans_ne isNew, lost, first ++ snd,
    fun rest => (if_neg (not_not.mpr miss)).trans ?_⟩
  simp only [append_assoc] at ht cleared ⊢
  rw [ht]
  rw [if_neg isNew, cleared]
  rfl

theorem addUnder_lost (roots : List Nat) (inode : Inode) (lost : Loses base fs) : Leaks base fs (addUnder entry zeroBuf roots inode) := by
  induction roots generalizing fs with
  | nil => exact ⟨.goesOn, inode, fs, nofun, lost, .here _ fs⟩
  | cons root roots ih =>
    by_cases miss : inode.iBlock root = 0
    · obtain ⟨ans, refused⟩ := plantRoot_fails fs zeroBuf miss
      obtain ⟨ending, inode', after, sane, stillLost, more, leads⟩ := @ih (fs.recordTake 0) lost
      refine ⟨ending, inode', after, sane, stillLost, ans ++ more, fun rest => ?_⟩
      simp only [append_assoc] at refused ⊢
      rw [addUnder, refused]
      dsimp only
      rw [if_pos miss]
      exact leads rest
    · have onward : Leaks base fs fun fs => (fill entry zeroBuf (root == 12) (root - 11) (inode.iBlock root) inode fs).goOn fun inode fs =>
          addUnder entry zeroBuf roots inode fs := (fill_passes fs entry zeroBuf _ _ _ inode).goOn (ih lost)
      obtain ⟨ending, inode', after, sane, stillLost, ans, leads⟩ := onward
      refine ⟨ending, inode', after, sane, stillLost, ans, fun rest => ?_⟩
      rw [addUnder, plantRoot, if_pos miss]
      exact (if_neg miss).trans (leads rest)

theorem addUnder_leaks (gives : Gives fs) {roots : List Nat}
    (miss : ∃ leaf ∈ roots.flatMap fun root => pathsUnder fs.entriesPerBlock (root - 11) [root], fs.blockAt inode leaf = 0) :
    Leaks fs fs (addUnder entry zeroBuf roots inode) := by
  induction roots with
  | nil =>
    obtain ⟨_, mem, _⟩ := miss
    exact nomatch mem
  | cons root roots ih =>
    by_cases empty : inode.iBlock root = 0
    · obtain ⟨inode', middle, there, lost, ans, planted⟩ := plantRoot_loses gives zeroBuf empty
      have onward : Leaks fs middle fun fs => (fill entry zeroBuf (root == 12) (root - 11) (inode'.iBlock root) inode' fs).goOn fun inode fs =>
          addUnder entry zeroBuf roots inode fs := (fill_passes middle entry zeroBuf _ _ _ inode').goOn (addUnder_lost roots inode' lost)
      obtain ⟨ending, inode'', after, sane, stillLost, more, leads⟩ := onward
      refine ⟨ending, inode'', after, sane, stillLost, ans ++ more, fun rest => ?_⟩
      simp only [append_assoc] at planted ⊢
      rw [addUnder, planted]
      exact (if_neg there).trans (leads rest)
    · have named : fs.blockAt inode [root] ≠ 0 := (blockAt_root fs inode root).trans_ne empty
      have onward : Leaks fs fs fun fs => (fill entry zeroBuf (root == 12) (root - 11) (inode.iBlock root) inode fs).goOn fun inode fs =>
          addUnder entry zeroBuf roots inode fs := by
        by_cases h : ∃ leaf ∈ pathsUnder fs.entriesPerBlock (root - 11) [root], fs.blockAt inode leaf = 0
        · have begins := @fill_leaks entry fs inode zeroBuf (root == 12) gives [root] (root - 11) (cons_ne_nil _ _) named h
          rw [blockAt_root] at begins
          exact begins.goOn fun inode middle => addUnder_lost roots inode
        · obtain ⟨leaf, mem, absent⟩ := miss
          have later := (mem_append.mp mem).resolve_left fun early => h ⟨leaf, early, absent⟩
          exact (fill_passes fs entry zeroBuf _ _ _ inode).goOn (ih ⟨leaf, later, absent⟩)
      obtain ⟨ending, inode', after, sane, lost, ans, leads⟩ := onward
      refine ⟨ending, inode', after, sane, lost, ans, fun rest => ?_⟩
      rw [addUnder, plantRoot, if_pos empty]
      exact (if_neg empty).trans (leads rest)

/-- The walk over the data blocks of the inode can be over with a bit lost. -/
def LeaksDirect (base fs : EXT2FileSystem) (walk : EXT2FileSystem → Walked × List Nat × Inode × EXT2FileSystem) : Prop :=
  ∃ walked allocated inode after, walked ≠ .added ∧ Loses base after ∧ Led walk fs (fun fs => (walked, allocated, inode, fs)) after

theorem addDirect_present {slot : Nat} (slots alloc : List Nat) (there : inode.iBlock slot ≠ 0)
    (onward : LeaksDirect base fs (addDirect entry zeroBuf slots alloc inode)) :
    LeaksDirect base fs (addDirect entry zeroBuf (slot :: slots) alloc inode) := by
  obtain ⟨ending, allocated', inode', after, sane, lost, more, leads⟩ := onward
  obtain ⟨ans, passed⟩ := addInBlock_passes fs entry (inode.iBlock slot) inode
  refine ⟨ending, allocated', inode', after, sane, lost, ans ++ more, fun rest => (if_pos there).trans ?_⟩
  simp only [append_assoc] at passed ⊢
  rw [passed]
  exact leads rest

theorem addDirect_lost (slots alloc : List Nat) (inode : Inode) (lost : Loses base fs) :
    LeaksDirect base fs (addDirect entry zeroBuf slots alloc inode) := by
  induction slots generalizing fs with
  | nil => exact ⟨.goesOn, alloc, inode, fs, nofun, lost, .here _ fs⟩
  | cons slot slots ih =>
    by_cases there : inode.iBlock slot ≠ 0
    · exact addDirect_present slots alloc there (ih lost)
    · obtain ⟨ans, refused⟩ := allocateBlock_fails fs
      refine ⟨.aborted, alloc, inode, fs.recordTake 0, nofun, lost, ans, fun rest => (if_neg there).trans ?_⟩
      dsimp only at refused ⊢
      rw [refused]
      rfl

theorem addDirect_leaks (gives : Gives fs) {slots : List Nat} (alloc : List Nat) (miss : ∃ slot ∈ slots, inode.iBlock slot = 0) :
    LeaksDirect fs fs (addDirect entry zeroBuf slots alloc inode) := by
  induction slots with
  | nil =>
    obtain ⟨_, mem, _⟩ := miss
    exact nomatch mem
  | cons slot slots ih =>
    by_cases there : inode.iBlock slot ≠ 0
    · obtain ⟨other, mem, empty⟩ := miss
      have later := (mem_cons.mp mem).resolve_left fun eq => there (eq ▸ empty)
      exact addDirect_present slots alloc there (ih ⟨other, later, empty⟩)
    · obtain ⟨new, middle, isNew, lost, first, ht⟩ := gives
      obtain ⟨ready, snd, cleared⟩ := initBlock_fails middle new zeroBuf
      obtain ⟨third, passed⟩ := addInBlock_passes middle entry new ((inode.setBlock slot new).addBlock middle.blockSize)
      obtain ⟨ending, allocated', inode', after, sane, stillLost, more, leads⟩ := @addDirect_lost entry fs middle zeroBuf slots (alloc ++ [slot])
        ((inode.setBlock slot new).addBlock middle.blockSize) lost
      refine ⟨ending, allocated', inode', after, sane, stillLost, first ++ (snd ++ (third ++ more)), fun rest => (if_neg there).trans ?_⟩
      simp only [append_assoc] at ht cleared passed ⊢
      rw [ht]
      rw [if_neg isNew, cleared]
      have size : (middle.withFaults (third ++ (more ++ rest))).blockSize = middle.blockSize := rfl
      dsimp only
      rw [size, passed]
      exact leads rest

theorem addDirect_passes {slots : List Nat} (alloc : List Nat) (there : ∀ slot ∈ slots, inode.iBlock slot ≠ 0) :
    Led (addDirect entry zeroBuf slots alloc inode) fs (fun fs => (.goesOn, alloc, inode, fs)) fs := by
  induction slots with
  | nil => exact .here _ fs
  | cons slot slots ih =>
    obtain ⟨ans, passed⟩ := addInBlock_passes fs entry (inode.iBlock slot) inode
    obtain ⟨more, leads⟩ := ih fun other mem => there other (.tail _ mem)
    refine ⟨ans ++ more, fun rest => (if_pos (there slot (.head _))).trans ?_⟩
    simp only [append_assoc] at passed ⊢
    rw [passed]
    exact leads rest

theorem addToBlocks_leaks (gives : Gives fs) (miss : ∃ leaf ∈ leafPaths fs.entriesPerBlock, fs.blockAt inode leaf = 0) :
    LeaksDirect fs fs fun fs => fs.addToBlocks entry zeroBuf inode := by
  have joined : ∀ {alloc inode' middle after} {walked : Walked} {last : Inode}, walked ≠ .added → Loses fs after →
      Led (addDirect entry zeroBuf (range 12) [] inode) fs (fun fs => (.goesOn, alloc, inode', fs)) middle →
      Led (addUnder entry zeroBuf [12, 13, 14] inode') middle (fun fs => (walked, last, fs)) after →
      LeaksDirect fs fs fun fs => fs.addToBlocks entry zeroBuf inode := by
    rintro alloc inode' middle after walked last sane lost ⟨ans, first⟩ ⟨more, snd⟩
    refine ⟨walked, alloc, last, after, sane, lost, ans ++ more, fun rest => ?_⟩
    simp only [append_assoc]
    unfold addToBlocks
    rw [first]
    dsimp only
    rw [snd]
  by_cases early : ∃ slot ∈ range 12, inode.iBlock slot = 0
  · obtain ⟨walked, alloc, inode', middle, sane, lost, begins⟩ := @addDirect_leaks entry fs inode zeroBuf gives _ [] early
    cases walked with
    | added => exact absurd rfl sane
    | aborted =>
      obtain ⟨ans, first⟩ := begins
      refine ⟨.aborted, alloc, inode', middle, sane, lost, ans, fun rest => ?_⟩
      dsimp only
      unfold addToBlocks
      rw [first]
    | goesOn =>
      obtain ⟨ending, last, after, sane, stillLost, onward⟩ := @addUnder_lost entry fs middle zeroBuf [12, 13, 14] inode' lost
      exact joined sane stillLost begins onward
  · have there : ∀ slot ∈ range 12, inode.iBlock slot ≠ 0 := fun slot mem empty => early ⟨slot, mem, empty⟩
    obtain ⟨leaf, mem, empty⟩ := miss
    rw [leafPaths_eq] at mem
    have later : leaf ∈ [12, 13, 14].flatMap fun root => pathsUnder fs.entriesPerBlock (root - 11) [root] := by
      refine (mem_append.mp mem).resolve_left fun first => ?_
      obtain ⟨slot, hin, under⟩ := mem_flatMap.mp first
      have lt := mem_range.mp hin
      rw [show slot - 11 = 0 by omega] at under
      rw [mem_singleton.mp under, blockAt_root] at empty
      exact there slot hin empty
    obtain ⟨ending, last, after, sane, lost, onward⟩ := @addUnder_leaks entry fs inode zeroBuf gives _ ⟨leaf, later, empty⟩
    exact joined sane lost (addDirect_passes [] there) onward

theorem cleanup_lost (alloc : List Nat) (inode : Inode) (lost : Loses base fs) : ∃ inode' after, Loses base after ∧
    Led (cleanupAllocatedDirects alloc inode) fs (fun fs => (inode', fs)) after := by
  induction alloc generalizing fs inode with
  | nil => exact ⟨inode, fs, lost, .here _ fs⟩
  | cons slot alloc ih =>
    by_cases empty : inode.iBlock slot = 0
    · obtain ⟨inode', after, stillLost, ans, leads⟩ := ih inode lost
      exact ⟨inode', after, stillLost, ans, fun rest => (if_pos empty).trans (leads rest)⟩
    · obtain ⟨ans, freed⟩ := freeBlock_fails fs (inode.iBlock slot)
      obtain ⟨inode', after, stillLost, more, leads⟩ := @ih (fs.recordFree (inode.iBlock slot)) ((inode.setBlock slot 0).dropBlock fs.blockSize) lost
      refine ⟨inode', after, stillLost, ans ++ more, fun rest => (if_neg empty).trans ?_⟩
      simp only [append_assoc] at freed ⊢
      rw [freed]
      exact leads rest

theorem persist_marked (fs : EXT2FileSystem) (parent : Nat) (inode : Inode) : (fs.persist parent inode).marked = fs.marked := by
  obtain ⟨later, kept | ⟨_, written⟩⟩ := persist_cases fs parent inode
  · rw [kept]
    rfl
  · rw [written]
    rfl

theorem addEntry_leaks {iMode parent : Nat} (gives : Gives fs) (isDir : iMode &&& ext2SIfdir ≠ 0)
    (miss : ∃ leaf ∈ leafPaths fs.entriesPerBlock, fs.blockAt inode leaf = 0) : ∃ faults,
    ((fs.withFaults faults).addEntryToDirectory entry iMode inode parent).1 = false ∧
    Loses fs ((fs.withFaults faults).addEntryToDirectory entry iMode inode parent).2.2 := by
  obtain ⟨walked, alloc, inode', middle, sane, lost, ans, leads⟩ := @addToBlocks_leaks entry fs inode true gives miss
  obtain ⟨last, after, stillLost, more, cleaned⟩ := cleanup_lost alloc inode' lost
  have walk : (fs.withFaults (ans ++ (more ++ []))).addToBlocks entry true inode = (walked, alloc, inode', middle.withFaults (more ++ [])) :=
    leads _
  refine ⟨false :: (ans ++ (more ++ [])), ?_⟩
  unfold addEntryToDirectory
  rw [if_neg isDir, show (fs.withFaults (false :: (ans ++ (more ++ [])))).request = (true, fs.withFaults (ans ++ (more ++ []))) from rfl]
  dsimp only
  rw [walk]
  cases walked with
  | added => exact absurd rfl sane
  | goesOn => exact ⟨rfl, lost⟩
  | aborted =>
    dsimp only
    rw [cleaned]
    refine ⟨rfl, ?_⟩
    unfold Loses
    rw [persist_marked]
    exact stillLost

end

end RosKernel.Ext2
