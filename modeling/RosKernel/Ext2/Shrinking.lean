import RosKernel.Ext2.Walks

/-! The walk of `Truncate` through an inode, on the tree of its blocks. -/

set_option autoImplicit false

namespace RosKernel.Ext2

open Library EXT2FileSystem List

/-- The levels of pointer blocks below a path, in the tree of an inode. -/
def height (path : List Nat) : Nat := path.getLastD 0 - 10 - path.length

def EXT2FileSystem.blockCount (fs : EXT2FileSystem) (inode : Inode) : Nat :=
  ((range 15).flatMap fun root => present (fs.blockAt inode) fs.entriesPerBlock (height [root]) [root]).length

section

variable {entries : Nat} {path : List Nat}

theorem height_falls (slot : Nat) (path : List Nat) (below : path ≠ []) : height (slot :: path) = height path - 1 := by
  obtain ⟨first, rest, rfl⟩ := exists_cons_of_ne_nil below
  unfold height
  simp only [getLastD_cons, length_cons]
  omega

theorem height_append (slots : List Nat) (root : Nat) : height (slots ++ [root]) = root - 11 - slots.length := by
  unfold height
  rw [length_append, length_singleton, getLastD_eq_getLast?, getLast?_concat, Option.getD_some]
  omega

theorem within_iff_under : Within entries path ∧ path ≠ [] ↔ ∃ root < 15, Under entries (height [root]) [root] path := by
  have single : ∀ root, height [root] = root - 11 := fun root => height_append [] root
  constructor
  · rintro ⟨empty | ⟨slots, root, rfl, known, short, lt⟩, below⟩
    · exact absurd empty below
    · exact ⟨root, known, slots, rfl, by rw [single]; exact short, lt⟩
  · rintro ⟨root, known, slots, rfl, short, lt⟩
    exact ⟨.inr ⟨slots, root, rfl, known, short, lt⟩, append_ne_nil_of_right_ne_nil _ (cons_ne_nil _ _)⟩

theorem height_above {slot : Nat} (hin : Within entries (slot :: path)) (below : path ≠ []) :
    0 < height path ∧ slot < entries := by
  rcases hin with empty | ⟨slots, root, split, known, short, lt⟩
  · exact nomatch empty
  · cases slots with
    | nil => exact absurd (cons.inj split).2 below
    | cons first slots =>
      rw [cons_append] at split
      cases split
      rw [height_append]
      rw [length_cons] at short
      exact ⟨by omega, lt slot mem_cons_self⟩

theorem leaf_iff : Leaf entries path ↔ Within entries path ∧ path ≠ [] ∧ height path = 0 := by
  constructor
  · rintro ⟨slots, root, rfl, known, long, lt⟩
    refine ⟨.inr ⟨slots, root, rfl, known, long.le, lt⟩,
      append_ne_nil_of_right_ne_nil _ (cons_ne_nil _ _), ?_⟩
    rw [height_append]
    omega
  · rintro ⟨empty | ⟨slots, root, rfl, known, short, lt⟩, below, low⟩
    · exact absurd empty below
    · rw [height_append] at low
      exact ⟨slots, root, rfl, known, by omega, lt⟩

theorem leaf_below {leaf : List Nat} (hin : Within entries path) (below : path ≠ []) :
    Under entries (height path) path leaf ∧ height leaf = 0 ↔ Leaf entries leaf ∧ path <:+ leaf := by
  obtain ⟨slots, root, rfl, known, short, lt⟩ := hin.resolve_left below
  constructor
  · rintro ⟨under, low⟩
    have onPath := under.suffix
    obtain ⟨more, rfl, fits, moreSmall⟩ := under
    rw [height_append] at fits
    rw [← append_assoc] at low ⊢
    refine ⟨leaf_iff.mpr ⟨.inr ⟨more ++ slots, root, rfl, known, ?_, ?_⟩, append_ne_nil_of_right_ne_nil _
      (cons_ne_nil _ _), low⟩, ?_⟩
    · rw [length_append]
      omega
    · grind
    · rw [append_assoc]
      exact onPath
  · rintro ⟨last, more, rfl⟩
    refine ⟨⟨more, rfl, ?_, ?_⟩, (leaf_iff.mp last).2.2⟩
    all_goals
      obtain ⟨slots', root', split, _, long, small'⟩ := last
      rw [← append_assoc] at split
      obtain ⟨front, eq⟩ := append_inj' split rfl
    · rw [height_append, (cons.inj eq).1, ← long, ← front, length_append]
      omega
    · intro slot mem
      exact small' slot (front ▸ mem_append_left slots mem)

/-- The walks number the data blocks as their paths do, but in 32 bits below the double indirect
block. From 256 KiB on the count of that tree is zero in 32 bits, and the triple one starts too early. -/
theorem globalIdx_iff {newBlocks : Nat} (lt : entries < 2 ^ 30) (regular : entries < 65536 ∨ entries * entries % 2 ^ 32 = 0)
    (few : 65536 ≤ entries → newBlocks ≤ entries) (leaf : Leaf entries path) (deep : 2 ≤ path.length) :
    (newBlocks ≤ globalIdx entries path ↔ newBlocks ≤ fileBlockOf entries path) ↔
      (path.length = 3 → newBlocks ≤ fileBlockOf entries path → newBlocks ≤ fileBlockOf entries path % 2 ^ 32) := by
  have start : (12 + entries) % 2 ^ 32 = 12 + entries := Nat.mod_eq_of_lt (by omega)
  obtain ⟨slots, root, rfl, known, long, hin⟩ := leaf
  match slots, long, hin with
  | [j], long, hin =>
    have bound := hin j (by simp)
    apply iff_of_true _ (fun three => nomatch three)
    change newBlocks ≤ (12 + j) % 2 ^ 32 ↔ newBlocks ≤ 12 + j
    omega
  | [j, i1], long, hin =>
    change (newBlocks ≤ ((12 + entries) % 2 ^ 32 + i1 * entries + j) % 2 ^ 32 ↔ newBlocks ≤ 12 + entries + (i1 * entries + j)) ↔
      (3 = 3 → newBlocks ≤ 12 + entries + (i1 * entries + j) → newBlocks ≤ (12 + entries + (i1 * entries + j)) % 2 ^ 32)
    rw [start, Nat.add_assoc (12 + entries)]
    have lower := Nat.mod_le (12 + entries + (i1 * entries + j)) (2 ^ 32)
    exact ⟨fun eq _ => eq.mpr, fun stays => ⟨fun low => low.trans lower, stays rfl⟩⟩
  | [j, i2, i1], long, hin =>
    apply iff_of_true _ (fun three => nomatch three)
    change newBlocks ≤ ((12 + entries) % 2 ^ 32 + entries * entries % 2 ^ 32) % 2 ^ 32 + i1 * (entries * entries % 2 ^ 32) +
      i2 * entries + j ↔ newBlocks ≤ 12 + entries + entries * entries + (i1 * (entries * entries) + (i2 * entries + j))
    rw [start]
    by_cases narrow : entries < 65536
    · have square : entries * entries ≤ 65535 * 65535 := Nat.mul_le_mul (by omega) (by omega)
      rw [Nat.mod_eq_of_lt (show entries * entries < 2 ^ 32 by omega), Nat.mod_eq_of_lt (by omega)]
      omega
    · rw [regular.resolve_left narrow, Nat.add_zero, start]
      have early := few (by omega)
      exact iff_of_true (by omega) (by omega)
  | [], long, hin => exact absurd deep (by simp)
  | _ :: _ :: _ :: _ :: more, long, hin =>
    simp only [length_cons] at long
    omega

end

section

variable {fs : EXT2FileSystem} {inode : Inode} {path : List Nat}

theorem blockAt_closed (slot : Nat) (path : List Nat) (below : path ≠ []) (miss : fs.blockAt inode path = 0) :
    fs.blockAt inode (slot :: path) = 0 := by
  by_contra there
  exact blockAt_of_suffix there (suffix_cons slot path) below miss

theorem WellFormed.once (wellFormed : fs.WellFormed inode) {node node' : List Nat} (hin : Within fs.entriesPerBlock node)
    (hin' : Within fs.entriesPerBlock node') (below : node ≠ []) (below' : node' ≠ []) (there : fs.blockAt inode node ≠ 0)
    (eq : fs.blockAt inode node = fs.blockAt inode node') : node = node' :=
  wellFormed node node' _ hin hin' ((reach_iff below there).mpr rfl) ((reach_iff below' there).mpr eq.symm)

/-- What a walk that drops these blocks releases. -/
def goes (fs : EXT2FileSystem) (inode : Inode) (drops : List Nat → Bool) : List (List Nat) :=
  releasedBelow (fs.blockAt inode) drops height fs.entriesPerBlock [] 15

/-- Everything that a walk does, on the paths of the tree before it. -/
structure CutsInode (fs after : EXT2FileSystem) (inode inode' : Inode) (drops : List Nat → Bool) : Prop where
  sound : after.faults = []
  size : after.blockSize = fs.blockSize
  freed : after.freed = fs.freed ++ (goes fs inode drops).map (fs.blockAt inode)
  blocks : inode'.iBlocks = (inode.dropBlocks fs.blockSize ((goes fs inode drops).countP fun node => height node = 0)).iBlocks
  tree : ∀ path, Within fs.entriesPerBlock path → path ≠ [] →
    after.blockAt inode' path = pruned (fs.blockAt inode) drops fs.entriesPerBlock (height path) path

theorem CutsInode.entries {after : EXT2FileSystem} {inode' : Inode} {drops : List Nat → Bool}
    (cuts : CutsInode fs after inode inode' drops) : after.entriesPerBlock = fs.entriesPerBlock :=
  congrArg (· / 4) cuts.size

theorem cutInode_spec (sound : fs.faults = []) (wellFormed : fs.WellFormed inode) (drops : List Nat → Bool) :
    (fs.cutInode drops inode).2.inodeTableBlock = fs.inodeTableBlock ∧
      CutsInode fs (fs.cutInode drops inode).2 inode (fs.cutInode drops inode).1 drops := by
  have within : ∀ {root node}, root < 15 → Under fs.entriesPerBlock (height [root]) [root] node →
      Within fs.entriesPerBlock node ∧ node ≠ [] := fun known under => within_iff_under.mpr ⟨_, known, under⟩
  have once : ∀ {root root' node node'}, root < 15 → root' < 15 → Under fs.entriesPerBlock (height [root]) [root] node →
      Under fs.entriesPerBlock (height [root']) [root'] node' → fs.blockAt inode node ≠ 0 →
      fs.blockAt inode node = fs.blockAt inode node' → node = node' := fun known known' under under' =>
    WellFormed.once wellFormed (within known under).1 (within known' under').1 (within known under).2 (within known' under').2
  have shows : ∀ root < 15, Shows (fs.blockAt inode) height fs.entriesPerBlock fs [root] := by
    intro root known node under _ there slot _
    exact (blockAt_cons ((reach_iff (within known under).2 there).mpr rfl) slot).symm
  have cuts := @cutSlots_spec (fs.blockAt inode) drops height fs.entriesPerBlock [] fs inode inode.iBlock 15
    (fun slot => cut drops (slot - 11) [slot]) 15 blockAt_closed
    (fun root known inode' mid middleSound size there still => ?_)
    (fun root _ => (blockAt_root fs inode root).symm)
    (fun root known root' known' ne node under there node' under' _ eq =>
      ne (under.slot_eq (once known known' under under' there eq.symm ▸ under')))
    shows sound rfl (Nat.le_refl _)
  · unfold cutInode
    generalize cutSlots (fun slot => cut drops (slot - 11) [slot]) 15 inode.iBlock inode fs = walked at cuts
    obtain ⟨slots, inode', after⟩ := walked
    refine ⟨cuts.beside.tables, ?_⟩
    constructor
    case sound => exact cuts.sound
    case size => exact cuts.beside.size
    case freed => exact cuts.freed
    case blocks =>
      have eq : inode' = _ := cuts.inode
      rw [eq]
      rfl
    case tree =>
      have slots : ∀ root < 15, slots root = pruned (fs.blockAt inode) drops fs.entriesPerBlock (height [root]) [root] :=
        fun root known => (cuts.slots root).trans (if_pos known)
      intro path hin below
      induction path with
      | nil => exact absurd rfl below
      | cons slot path ih =>
        cases path with
        | nil =>
          rw [blockAt_root]
          obtain ⟨root, known, under⟩ := within_iff_under.mp ⟨hin, below⟩
          have eq : root = slot := (cons.inj (under.suffix.eq_of_length rfl)).1
          exact slots slot (eq ▸ known)
        | cons next rest =>
          have above : next :: rest ≠ [] := cons_ne_nil next rest
          have hin' := within_closed slot _ hin
          obtain ⟨inner, lt⟩ := height_above hin above
          obtain ⟨root, known, under⟩ := within_iff_under.mp ⟨hin', above⟩
          have h := ih hin' above
          cases keeps : kept (fs.blockAt inode) drops fs.entriesPerBlock (height (next :: rest)) (next :: rest) with
          | true =>
            rw [pruned_kept keeps] at h
            rw [blockAt_cons ((reach_iff above (kept_label keeps)).mpr h)]
            exact cuts.written root known (next :: rest) under inner keeps slot lt
          | false =>
            rw [pruned_eq_zero.mpr keeps] at h
            rw [blockAt_closed slot _ above h, eq_comm, pruned_eq_zero]
            apply eq_false_of_ne_true
            intro childKeeps
            have up : height (next :: rest) = height (slot :: next :: rest) + 1 := by
              rw [height_falls slot _ above]
              omega
            have labelled : fs.blockAt inode (next :: rest) ≠ 0 := fun miss =>
              kept_label childKeeps (blockAt_closed slot _ above miss)
            rw [up] at keeps
            exact nomatch keeps.symm.trans (kept_succ.mpr ⟨labelled, slot, lt, childKeeps⟩)
  · have spec := @cut_spec (fs.blockAt inode) drops height fs.entriesPerBlock (root - 11) [root] mid inode' height_falls
      blockAt_closed (height_append [] root) (cons_ne_nil _ _) (fun node node' => once known known) middleSound size there still
    exact spec

variable {drops : List Nat → Bool}

theorem mem_goes : path ∈ goes fs inode drops ↔ (Within fs.entriesPerBlock path ∧ path ≠ []) ∧ fs.blockAt inode path ≠ 0 ∧
    kept (fs.blockAt inode) drops fs.entriesPerBlock (height path) path = false := by
  have each : ∀ root, path ∈ released (fs.blockAt inode) drops fs.entriesPerBlock (height [root]) [root] ↔ _ := fun root =>
    mem_released height_falls blockAt_closed rfl (cons_ne_nil root [])
  unfold goes releasedBelow
  rw [mem_flatMap, within_iff_under]
  constructor
  · grind
  · grind

theorem goes_nodup : (goes fs inode drops).Nodup := by
  have under : ∀ {root path}, path ∈ released (fs.blockAt inode) drops fs.entriesPerBlock (height [root]) [root] →
      Under fs.entriesPerBlock (height [root]) [root] path := fun mem =>
    ((mem_released height_falls blockAt_closed rfl (cons_ne_nil _ [])).mp mem).1
  unfold goes releasedBelow
  rw [nodup_flatMap]
  constructor
  · exact fun root _ => released_nodup _ [root] height_falls blockAt_closed rfl (cons_ne_nil root [])
  · apply nodup_range.imp
    intro root root' ne path first snd
    exact ne ((under first).slot_eq (under snd))

theorem blocks_nodup (wellFormed : fs.WellFormed inode) : ((goes fs inode drops).map (fs.blockAt inode)).Nodup := by
  apply List.Nodup.map_on _ goes_nodup
  intro path mem path' mem' eq
  obtain ⟨⟨hin, below⟩, there, _⟩ := mem_goes.mp mem
  obtain ⟨⟨hin', below'⟩, _, _⟩ := mem_goes.mp mem'
  exact WellFormed.once wellFormed hin hin' below below' there eq

theorem CutsInode.blockCount {after : EXT2FileSystem} {inode' : Inode} (cuts : CutsInode fs after inode inode' drops) :
    fs.blockCount inode = after.blockCount inode' + (goes fs inode drops).length := by
  have entries : after.entriesPerBlock = fs.entriesPerBlock := cuts.entries
  unfold EXT2FileSystem.blockCount goes releasedBelow
  rw [entries, length_flatMap, length_flatMap, length_flatMap, ← sum_map_add]
  congr 1
  apply map_congr_left
  intro root known
  apply length_present _ [root] height_falls rfl (cons_ne_nil root [])
  intro node under
  obtain ⟨hin, below⟩ := within_iff_under.mpr ⟨root, mem_range.mp known, under⟩
  exact cuts.tree node hin below

theorem kept_iff_leaf (hin : Within fs.entriesPerBlock path) (below : path ≠ []) :
    kept (fs.blockAt inode) drops fs.entriesPerBlock (height path) path = true ↔
      ∃ leaf, Leaf fs.entriesPerBlock leaf ∧ path <:+ leaf ∧ fs.blockAt inode leaf ≠ 0 ∧ drops leaf = false := by
  rw [kept_iff height_falls blockAt_closed rfl below]
  constructor
  · rintro ⟨leaf, under, low, rest⟩
    exact ⟨leaf, ((leaf_below hin below).mp ⟨under, low⟩).1, under.suffix, rest⟩
  · rintro ⟨leaf, last, onPath, rest⟩
    obtain ⟨under, low⟩ := (leaf_below hin below).mpr ⟨last, onPath⟩
    exact ⟨leaf, under, low, rest⟩

theorem Inode.dropBlocks_iBlocks {blockSize count : Nat} (narrow : blockSize < 2 ^ 32) (lt : inode.iBlocks < 2 ^ 32)
    (enough : blockSize / 512 * count ≤ inode.iBlocks) :
    (inode.dropBlocks blockSize count).iBlocks = inode.iBlocks - blockSize / 512 * count := by
  induction count with
  | zero => rfl
  | succ count ih =>
    rw [Nat.mul_succ] at enough ⊢
    have step : (inode.dropBlocks blockSize (count + 1)).iBlocks =
        ((inode.dropBlocks blockSize count).iBlocks + (2 ^ 32 - blockSize / 512 % 2 ^ 32)) % 2 ^ 32 :=
      congrArg Inode.iBlocks (Function.iterate_succ_apply' _ count inode)
    rw [step, ih (by omega)]
    omega

end

end RosKernel.Ext2
