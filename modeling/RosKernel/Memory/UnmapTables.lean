import RosKernel.Memory.MapTables

/-! `UnmapPage` on one page table.

The call clears one entry and then gives back the tables above it, from the last level up, each
if no entry of it is present. An entry that is not present may still hold a word, and that word is
lost with its table.
-/

set_option autoImplicit false

namespace RosKernel.Memory

open Library List Option

namespace PageMemory

variable (memory : PageMemory)

/-- The word of an entry; zero if its table is not there. -/
def wordAt (pml4 : Nat) (path : List Nat) : Nat :=
  ((memory.entryAt pml4 path).map Prod.snd).getD 0

/-- No entry of a table but one is present. -/
def Spare (pml4 i : Nat) (path : List Nat) : Prop :=
  ∀ node, memory.tableAt pml4 path = some node → ∀ k < tableSize, k ≠ i → present (memory.words node.2 k) = false

/-- No entry of a table but one holds anything. -/
def Clean (pml4 i : Nat) (path : List Nat) : Prop :=
  ∀ node, memory.tableAt pml4 path = some node → ∀ k < tableSize, k ≠ i → memory.words node.2 k = 0

/-- Each table that goes away with an entry at the end of a path holds nothing else. -/
def Tidy (memory : PageMemory) (pml4 : Nat) : List Nat → Prop
  | i :: j :: path => memory.Spare pml4 i (j :: path) → memory.Clean pml4 i (j :: path) ∧ memory.Tidy pml4 (j :: path)
  | _ => True

/-- The scans of `UnmapPage`: parents with the indices of their entries and the tables that these name. -/
def reclaimAll (steps : List (Nat × Nat × Nat)) : PageMemory :=
  steps.foldl (fun memory step => memory.reclaim step.1 step.2.1 step.2.2) memory

end PageMemory

/-! ## Giving back one table -/

section

variable {memory memory' : PageMemory} {pml4 i j : Nat} {path : List Nat} {node parent : Nat × Nat}

theorem wordAt_cons (hr : memory.tableAt pml4 path = some node) (i : Nat) :
    memory.wordAt pml4 (i :: path) = memory.words node.2 i := by
  simp only [PageMemory.wordAt, PageMemory.entryAt, hr]
  rfl

theorem wordAt_lost (lost : memory.tableAt pml4 path = none) (i : Nat) : memory.wordAt pml4 (i :: path) = 0 := by
  simp only [PageMemory.wordAt, PageMemory.entryAt, lost]
  rfl

theorem below_absent {entry : Nat} (absent : present entry = false) (level : Nat) : below (level, entry) = none := by
  cases level with
  | zero => rfl
  | succ level =>
    simp only [below, absent]
    rfl

theorem free_inUse_mappable {frame : Nat} (mappable : Mappable frame) (addr : Nat) :
    (memory.free frame).InUse addr ↔ memory.InUse addr ∧ addr ≠ frame := by
  by_cases managed : Managed frame
  · exact free_inUse managed addr
  · have phys : (physicalFreePages memory.frames frame 1).phys = memory.frames.phys := by
      obtain ⟨hal, lt⟩ := mappable
      unfold physicalFreePages
      split
      case isTrue => rfl
      case isFalse =>
        split
        case isTrue =>
          unfold physicalFreeLowPages
          split
          case isTrue => rfl
          case isFalse =>
            split
            case isTrue => rfl
            case isFalse => split <;> rfl
        case isFalse high =>
          split
          case isTrue => rfl
          case isFalse fits =>
            refine absurd ⟨(frame - physBase) / pageSize, ?_, ?_⟩ managed
            · simp only [add64, physBase, pageSize, physFrames] at fits high hal ⊢
              omega
            · simp only [physBase, pageSize] at high hal ⊢
              omega
    have eq : (memory.free frame).InUse addr ↔ memory.InUse addr := by
      unfold PageMemory.InUse Bitmaps.used PageMemory.free
      rw [phys]
    rw [eq]
    constructor
    · intro used
      refine ⟨used, ?_⟩
      rintro rfl
      exact managed used.managed
    · exact And.left

/-- What giving back one table changes. -/
structure Drops (memory memory' : PageMemory) (pml4 : Nat) (path : List Nat) : Prop where
  tree : TableTree memory' pml4
  tables : ∀ path', Indices path' → memory'.tableAt pml4 path' = if path' = path then none else memory.tableAt pml4 path'
  pages : ∀ path', Indices path' → memory'.pageAt pml4 path' = memory.pageAt pml4 path'

theorem tableAt_entryAddr (hr : memory.tableAt pml4 path = some parent)
    (named : memory.tableAt pml4 (j :: path) = some node) :
    present (memory.words parent.2 j) = true ∧ node.2 = entryAddr (memory.words parent.2 j) := by
  rw [tableAt_cons, hr, Option.bind_some] at named
  obtain ⟨_, addr, h, _⟩ := below_eq_some named
  exact ⟨h, addr⟩

/-- A table without entries is given back, and its parent forgets it. -/
theorem TableTree.drop (tree : TableTree memory pml4) (hin : Indices (j :: path))
    (hr : memory.tableAt pml4 path = some parent) (named : memory.tableAt pml4 (j :: path) = some node)
    (barren : ∀ k < tableSize, present (memory.words node.2 k) = false) :
    Drops memory ((memory.write parent.2 j 0).free node.2) pml4 (j :: path) := by
  have words : ∀ other k, ((memory.write parent.2 j 0).free node.2).words other k =
      if other = parent.2 ∧ k = j then 0 else memory.words other k := write_words memory parent.2 j 0
  have cleared : ((memory.write parent.2 j 0).free node.2).words parent.2 j = 0 := by rw [words, if_pos ⟨rfl, rfl⟩]
  generalize same' : (memory.write parent.2 j 0).free node.2 = memory' at words cleared
  have gone : below (memory'.levelEntry parent j) = none := by
    unfold PageMemory.levelEntry
    rw [cleared]
    exact below_absent rfl parent.1
  have tables : ∀ path', Indices path' →
      memory'.tableAt pml4 path' = if path' = j :: path then none else memory.tableAt pml4 path' := by
    intro path' hin'
    rw [← gone]
    apply tree.tableAt_set hin.tail hr
    · intro other k _ elsewhere
      rw [words, if_neg elsewhere]
    · intro child childNamed k lt
      obtain rfl : node = child := by
        rw [tableAt_cons, hr, Option.bind_some] at named
        exact some.inj (named.symm.trans childNamed)
      exact below_absent (barren k lt) node.1
    · grind
    · exact hin'
  have inUse : ∀ addr, memory'.InUse addr ↔ memory.InUse addr ∧ addr ≠ node.2 := by
    have addr := (tableAt_entryAddr hr named).2
    rw [← same', addr]
    exact free_inUse_mappable (entryAddr_mappable _)
  have old : ∀ path' other, Indices path' → memory'.tableAt pml4 path' = some other →
      path' ≠ j :: path ∧ memory.tableAt pml4 path' = some other := by
    intro path' other hin' there
    rw [tables path' hin'] at there
    split at there
    case isTrue => exact nomatch there
    case isFalse elsewhere => exact ⟨elsewhere, there⟩
  refine ⟨⟨?_, ?_⟩, tables, ?_⟩
  · rintro addr ⟨path', level, hin', there⟩ managed
    obtain ⟨elsewhere, there⟩ := old path' _ hin' there
    refine (inUse addr).mpr ⟨tree.taken addr ⟨path', level, hin', there⟩ managed, ?_⟩
    rintro rfl
    exact elsewhere (tree.once (j :: path) path' node.1 level node.2 hin hin' named there)
  · intro path' path'' level level' addr hin' inside'' there there'
    exact tree.once path' path'' level level' addr hin' inside'' (old path' _ hin' there).2 (old path'' _ inside'' there').2
  · intro path' hin'
    cases path' with
    | nil => rfl
    | cons k path' =>
      by_cases h : k :: path' = j :: path
      · -- the entry named a table, and is now absent
        obtain ⟨rfl, rfl⟩ := cons.inj h
        have stays : memory'.tableAt pml4 path' = some parent := by
          rw [tables path' hin.tail, if_neg (cons_ne_self k path').symm, hr]
        rw [pageAt_table named, pageAt_cons stays, PageMemory.levelEntry, cleared, mapsPage_absent rfl]
        rfl
      · by_cases inner : path' = j :: path
        · -- no entry of the table was present
          subst inner
          have lost : memory'.tableAt pml4 (j :: path) = none := by rw [tables _ hin, if_pos rfl]
          rw [pageAt_lost lost, pageAt_cons named, PageMemory.levelEntry, mapsPage_absent (barren k hin'.head)]
          rfl
        · apply pageAt_congr
          · rw [tables path' hin'.tail, if_neg inner]
          · intro other there
            rw [words, if_neg]
            rintro ⟨sameTable, rfl⟩
            obtain rfl := tree.once path path' parent.1 other.1 parent.2 hin.tail hin'.tail hr (sameTable ▸ there)
            exact h rfl

theorem Indices.suffix {path' : List Nat} (hin : Indices path) (part : path' <:+ path) : Indices path' :=
  fun k mem => hin k (part.mem mem)

theorem Drops.inner (drops : Drops memory memory' pml4 (j :: path)) (hin : Indices path) {path' : List Nat}
    (part : path' <:+ path) : memory'.tableAt pml4 path' = memory.tableAt pml4 path' := by
  rw [drops.tables path' (hin.suffix part), if_neg]
  rintro rfl
  exact absurd part.length_le (by simp)

theorem TableTree.apart (tree : TableTree memory pml4) (hin : Indices (j :: path))
    (named : memory.tableAt pml4 (j :: path) = some node) {path' : List Nat} {other : Nat × Nat} (part : path' <:+ path)
    (there : memory.tableAt pml4 path' = some other) : other.2 ≠ node.2 := by
  intro eq
  have samePath := tree.once path' (j :: path) other.1 node.1 node.2 (hin.tail.suffix part) hin (eq ▸ there) named
  rw [← samePath] at part
  exact absurd part.length_le (by simp)

end

/-! ## From the last level up -/

/-- The scans that follow a cleared entry, with the tables that they give back. -/
inductive Climb (pml4 : Nat) : PageMemory → List Nat → List Nat → PageMemory → Prop
  | root {memory : PageMemory} {i : Nat} : Climb pml4 memory [i] [] memory
  | stays {memory : PageMemory} {i k : Nat} {path : List Nat} {node : Nat × Nat} :
      memory.tableAt pml4 path = some node → k < tableSize → k ≠ i → present (memory.words node.2 k) = true →
      Climb pml4 memory (i :: path) [] memory
  | drops {memory memory' : PageMemory} {i j : Nat} {path log : List Nat} {node parent : Nat × Nat} :
      memory.tableAt pml4 path = some parent → memory.tableAt pml4 (j :: path) = some node →
      (∀ k < tableSize, present (memory.words node.2 k) = false) → memory.words node.2 i = 0 →
      Climb pml4 ((memory.write parent.2 j 0).free node.2) (j :: path) log memory' →
      Climb pml4 memory (i :: j :: path) (node.2 :: log) memory'

/-- The steps along a path. -/
inductive Along (memory : PageMemory) (pml4 : Nat) : List Nat → List (Nat × Nat × Nat) → Prop
  | root (i : Nat) : Along memory pml4 [i] []
  | under {i j : Nat} {path : List Nat} {steps : List (Nat × Nat × Nat)} {node parent : Nat × Nat} :
      memory.tableAt pml4 path = some parent → memory.tableAt pml4 (j :: path) = some node →
      Along memory pml4 (j :: path) steps → Along memory pml4 (i :: j :: path) ((parent.2, j, node.2) :: steps)

section

variable {memory memory' : PageMemory} {pml4 i j : Nat} {path log : List Nat} {node parent : Nat × Nat}
  {steps : List (Nat × Nat × Nat)}

theorem reclaimAll_cons (memory : PageMemory) (parent j table : Nat) (steps : List (Nat × Nat × Nat)) :
    memory.reclaimAll ((parent, j, table) :: steps) = (memory.reclaim parent j table).reclaimAll steps := by
  unfold PageMemory.reclaimAll
  rw [foldl_cons]

theorem Along.congr (along : Along memory pml4 path steps)
    (eq : ∀ path', path' <:+ path.tail → memory'.tableAt pml4 path' = memory.tableAt pml4 path') :
    Along memory' pml4 path steps := by
  induction along with
  | root i => exact .root i
  | @under i j path steps node parent hr named _ ih =>
    have later : ∀ path', path' <:+ path → memory'.tableAt pml4 path' = memory.tableAt pml4 path' :=
      fun path' part => eq path' (part.trans (suffix_cons j path))
    apply Along.under
    · rw [later path (suffix_refl _), hr]
    · rw [eq (j :: path) (suffix_refl _), named]
    · exact ih later

theorem Along.reclaimAll_stays (along : Along memory pml4 (i :: path) steps) (indices : Indices (i :: path))
    (hr : memory.tableAt pml4 path = some node) (h : present (memory.words node.2 i) = true) :
    memory.reclaimAll steps = memory := by
  induction path generalizing i node steps with
  | nil =>
    cases along
    rfl
  | cons j path ih =>
    cases along with
    | @under _ _ _ steps node' parent above named along =>
      obtain rfl := some.inj (hr.symm.trans named)
      have notEmpty : ¬memory.emptyTable node.2 = true :=
        fun empty => nomatch h.symm.trans (emptyTable_iff.mp empty i indices.head)
      rw [reclaimAll_cons, PageMemory.reclaim, if_neg notEmpty]
      exact ih along indices.tail above (tableAt_entryAddr above named).1

theorem TableTree.climb (tree : TableTree memory pml4) (hin : Indices path) (along : Along memory pml4 path steps)
    (zero : memory.wordAt pml4 path = 0) : ∃ log, Climb pml4 memory path log (memory.reclaimAll steps) := by
  induction path generalizing memory steps with
  | nil => cases along
  | cons i path ih =>
    cases along with
    | root => exact ⟨[], .root⟩
    | @under _ j rest steps node parent hr named along =>
      rw [wordAt_cons named] at zero
      rw [reclaimAll_cons, PageMemory.reclaim]
      by_cases empty : memory.emptyTable node.2 = true
      case pos =>
        have barren := emptyTable_iff.mp empty
        have drops := tree.drop hin.tail hr named barren
        have kept : ∀ path', path' <:+ rest →
            ((memory.write parent.2 j 0).free node.2).tableAt pml4 path' = memory.tableAt pml4 path' :=
          fun _ part => drops.inner hin.tail.tail part
        have cleared : ((memory.write parent.2 j 0).free node.2).wordAt pml4 (j :: rest) = 0 := by
          rw [wordAt_cons ((kept rest (suffix_refl _)).trans hr)]
          exact (write_words memory parent.2 j 0 parent.2 j).trans (if_pos ⟨rfl, rfl⟩)
        obtain ⟨log, climb⟩ := ih drops.tree hin.tail (along.congr kept) cleared
        rw [if_pos empty]
        rw [← (tableAt_entryAddr hr named).2]
        exact ⟨node.2 :: log, .drops hr named barren zero climb⟩
      case neg =>
        have some_ : ∃ k < tableSize, present (memory.words node.2 k) = true := by
          by_contra none_
          exact empty (emptyTable_iff.mpr fun k lt => Bool.eq_false_iff.mpr fun h => none_ ⟨k, lt, h⟩)
        obtain ⟨k, lt, h⟩ := some_
        have other : k ≠ i := by
          rintro rfl
          rw [zero] at h
          exact absurd h (by decide)
        rw [if_neg empty, along.reclaimAll_stays hin.tail hr (tableAt_entryAddr hr named).1]
        exact ⟨[], .stays named lt other h⟩

theorem tableAt_suffix {path' : List Nat} (part : path' <:+ path) (hr : memory.tableAt pml4 path = some node) :
    ∃ other, memory.tableAt pml4 path' = some other := by
  induction path generalizing node with
  | nil => exact ⟨node, suffix_nil.mp part ▸ hr⟩
  | cons i path ih =>
    rcases suffix_cons_iff.mp part with rfl | inner
    · exact ⟨node, hr⟩
    · obtain ⟨parent, above, _⟩ := Option.bind_eq_some_iff.mp hr
      exact ih inner above

theorem suffix_of_cons {rest : List Nat} (part : (i :: rest) <:+ j :: path) : rest <:+ path := by
  rcases suffix_cons_iff.mp part with eq | inner
  · exact (cons.inj eq).2 ▸ suffix_refl _
  · exact (suffix_cons i rest).trans inner

theorem exists_index {rest : List Nat} (part : rest <:+ path) (i : Nat) : ∃ k, (k :: rest) <:+ i :: path := by
  induction path generalizing i with
  | nil =>
    obtain rfl := suffix_nil.mp part
    exact ⟨i, suffix_refl _⟩
  | cons j path ih =>
    rcases suffix_cons_iff.mp part with rfl | inner
    · exact ⟨i, suffix_refl _⟩
    · obtain ⟨k, part'⟩ := ih inner j
      exact ⟨k, part'.trans (suffix_cons i _)⟩

theorem index_eq {rest : List Nat} {k : Nat} (part : (i :: rest) <:+ path) (part' : (k :: rest) <:+ path) : i = k :=
  (cons.inj ((suffix_of_suffix_length_le part part' (Nat.le_refl _)).eq_of_length rfl)).1

/-- What the scans along a path have changed; `log` holds the tables that were given back. -/
structure Climbed (memory memory' : PageMemory) (pml4 : Nat) (path log : List Nat) : Prop where
  tree : TableTree memory' pml4
  history : memory'.freed = memory.freed ++ log
  inUse : ∀ addr, memory'.InUse addr ↔ memory.InUse addr ∧ addr ∉ log
  pages : ∀ path', Indices path' → memory'.pageAt pml4 path' = memory.pageAt pml4 path'
  tables : ∀ path', Indices path' → memory'.tableAt pml4 path' = memory.tableAt pml4 path' ∨
    memory'.tableAt pml4 path' = none ∧ ∃ node, memory.tableAt pml4 path' = some node ∧ node.2 ∈ log
  words : ∀ addr k, (∀ j rest parent, (j :: rest) <:+ path.tail → memory.tableAt pml4 rest = some parent →
    ¬(addr = parent.2 ∧ k = j)) → memory'.words addr k = memory.words addr k
  freed : ∀ frame ∈ log, ∃ path' level, path' <:+ path.tail ∧ path' ≠ [] ∧ memory.tableAt pml4 path' = some (level, frame)
  nodup : log.Nodup
  lost : ∀ j rest node, (j :: rest) <:+ path.tail → memory.tableAt pml4 (j :: rest) = some node → node.2 ∈ log →
    memory'.wordAt pml4 (j :: rest) = 0
  zero : ∀ i rest node, (i :: rest) <:+ path → memory.tableAt pml4 rest = some node → node.2 ∈ log →
    memory'.words node.2 i = 0
  stays : ∀ i rest node, (i :: rest) <:+ path → rest ≠ [] → memory.tableAt pml4 rest = some node → node.2 ∉ log →
    ∃ k < tableSize, present (memory'.words node.2 k) = true

theorem Climbed.refl (tree : TableTree memory pml4)
    (stays : ∀ i rest node, (i :: rest) <:+ path → rest ≠ [] → memory.tableAt pml4 rest = some node →
      ∃ k < tableSize, present (memory.words node.2 k) = true) : Climbed memory memory pml4 path [] where
  tree := tree
  history := (append_nil _).symm
  inUse _ := ⟨fun used => ⟨used, not_mem_nil⟩, And.left⟩
  pages _ _ := rfl
  tables _ _ := .inl rfl
  words _ _ _ := rfl
  freed _ mem := nomatch mem
  nodup := .nil
  lost _ _ _ _ _ mem := nomatch mem
  zero _ _ _ _ _ mem := nomatch mem
  stays i rest node part inner hr _ := stays i rest node part inner hr

theorem Climbed.drop {mid : PageMemory} (tree : TableTree memory pml4) (hin : Indices (i :: j :: path))
    (hr : memory.tableAt pml4 path = some parent) (named : memory.tableAt pml4 (j :: path) = some node)
    (zero : memory.words node.2 i = 0) (drops : Drops memory mid pml4 (j :: path))
    (step : mid = (memory.write parent.2 j 0).free node.2) (climbed : Climbed mid memory' pml4 (j :: path) log) :
    Climbed memory memory' pml4 (i :: j :: path) (node.2 :: log) := by
  have inner : ∀ path', path' <:+ path → mid.tableAt pml4 path' = memory.tableAt pml4 path' :=
    fun _ part => drops.inner hin.tail.tail part
  have ne : ∀ path' other, path' <:+ path → memory.tableAt pml4 path' = some other → other.2 ≠ node.2 :=
    fun _ _ part there => tree.apart hin.tail named part there
  have stepWords : ∀ other k, mid.words other k = if other = parent.2 ∧ k = j then 0 else memory.words other k :=
    step ▸ write_words memory parent.2 j 0
  have stepUse : ∀ addr, mid.InUse addr ↔ memory.InUse addr ∧ addr ≠ node.2 := by
    have addr := (tableAt_entryAddr hr named).2
    rw [step, addr]
    exact free_inUse_mappable (entryAddr_mappable _)
  -- the scans above write only entries above
  have later : ∀ other k, (∀ j' rest above, (j' :: rest) <:+ path → memory.tableAt pml4 rest = some above →
      ¬(other = above.2 ∧ k = j')) → memory'.words other k = mid.words other k := by
    intro other k elsewhere
    refine climbed.words other k fun j' rest above part there => elsewhere j' rest above part ?_
    rw [← inner rest ((suffix_cons j' rest).trans part), there]
  refine ⟨climbed.tree, ?_, ?_, ?_, ?_, ?_, ?_, ?_, ?_, ?_, ?_⟩
  · rw [climbed.history, step]
    exact append_assoc _ _ _
  · intro addr
    rw [climbed.inUse, stepUse, mem_cons, not_or, and_assoc]
  · exact fun path' hin' => (climbed.pages path' hin').trans (drops.pages path' hin')
  · intro path' hin'
    have first := drops.tables path' hin'
    by_cases h : path' = j :: path
    · rw [if_pos h] at first
      refine .inr ⟨?_, node, h ▸ named, .head _⟩
      rcases climbed.tables path' hin' with eq | ⟨lost, _⟩
      · exact eq.trans first
      · exact lost
    · rw [if_neg h] at first
      rcases climbed.tables path' hin' with eq | ⟨lost, other, there, mem⟩
      · exact .inl (eq.trans first)
      · exact .inr ⟨lost, other, first ▸ there, .tail _ mem⟩
  · grind
  · intro frame mem
    rcases mem_cons.mp mem with rfl | mem
    · grind
    · obtain ⟨path', level, part, inner', there⟩ := climbed.freed frame mem
      exact ⟨path', level, part.trans (suffix_cons j path), inner', inner path' part ▸ there⟩
  · refine nodup_cons.mpr ⟨fun mem => ?_, climbed.nodup⟩
    obtain ⟨path', level, part, _, there⟩ := climbed.freed node.2 mem
    exact ne path' (level, node.2) part (inner path' part ▸ there) rfl
  · intro j' rest other part there mem
    rcases suffix_cons_iff.mp part with eq | upper
    · obtain ⟨rfl, rfl⟩ := cons.inj eq
      rcases climbed.tables rest hin.tail.tail with kept | ⟨lost, _⟩
      · rw [wordAt_cons ((kept.trans (inner rest (suffix_refl _))).trans hr), later, stepWords,
          if_pos ⟨rfl, rfl⟩]
        rintro j'' rest' above part' there' ⟨sameTable, _⟩
        obtain rfl := tree.once rest rest' parent.1 above.1 parent.2 hin.tail.tail
          (hin.tail.tail.suffix ((suffix_cons j'' rest').trans part')) hr (sameTable ▸ there')
        exact absurd part'.length_le (by simp)
      · exact wordAt_lost lost j'
    · rcases mem_cons.mp mem with eq | mem
      · exact absurd eq (ne _ other upper there)
      · exact climbed.lost j' rest other upper ((inner _ upper).trans there) mem
  · intro i' rest other part there mem
    rcases suffix_cons_iff.mp part with eq | upper
    · obtain ⟨rfl, rfl⟩ := cons.inj eq
      obtain rfl := some.inj (named.symm.trans there)
      rw [later, stepWords, if_neg, zero]
      · grind
      · exact fun j' rest' above part' there' both =>
          ne rest' above ((suffix_cons j' rest').trans part') there' both.1.symm
    · have above := suffix_of_cons upper
      rcases mem_cons.mp mem with eq | mem
      · exact absurd eq (ne rest other above there)
      · exact climbed.zero i' rest other upper ((inner rest above).trans there) mem
  · intro i' rest other part notRoot there absent
    rcases suffix_cons_iff.mp part with eq | upper
    · grind
    · have above := suffix_of_cons upper
      exact climbed.stays i' rest other upper notRoot ((inner rest above).trans there)
        fun mem => absent (.tail _ mem)

theorem Climb.climbed (climb : Climb pml4 memory path log memory') (tree : TableTree memory pml4) (hin : Indices path) :
    Climbed memory memory' pml4 path log := by
  induction climb with
  | root =>
    refine .refl tree fun i rest node part notRoot _ => ?_
    exact absurd (length_eq_zero_iff.mp (by simpa using part.length_le)) notRoot
  | @stays memory i k path node hr lt _ h =>
    refine .refl tree fun i' rest other part _ there => ?_
    rcases suffix_cons_iff.mp part with eq | upper
    · grind
    · obtain ⟨child, below⟩ := tableAt_suffix upper hr
      exact ⟨i', (hin.tail.suffix upper).head, (tableAt_entryAddr there below).1⟩
  | drops hr named barren zero _ ih =>
    have drops := tree.drop hin.tail hr named barren
    exact .drop tree hin hr named zero drops rfl (ih drops.tree hin.tail)

/-! ## When nothing else is lost -/

theorem tidy_congr (tables : ∀ path', path' <:+ path.tail → memory'.tableAt pml4 path' = memory.tableAt pml4 path')
    (words : ∀ i rest node, (i :: rest) <:+ path → memory.tableAt pml4 rest = some node → ∀ k, k ≠ i →
      memory'.words node.2 k = memory.words node.2 k) : memory'.Tidy pml4 path ↔ memory.Tidy pml4 path := by
  induction path with
  | nil => exact .rfl
  | cons i path ih =>
    cases path with
    | nil => exact .rfl
    | cons j path =>
      have h := tables (j :: path) (suffix_refl _)
      have later := ih (fun path' part => tables path' (part.trans (suffix_cons j path)))
        fun i' rest node part => words i' rest node (part.trans (suffix_cons i _))
      have spare : memory'.Spare pml4 i (j :: path) ↔ memory.Spare pml4 i (j :: path) := by
        unfold PageMemory.Spare
        rw [h]
        refine forall₂_congr fun node there => forall₃_congr fun k _ other => ?_
        rw [words i _ node (suffix_refl _) there k other]
      have clean : memory'.Clean pml4 i (j :: path) ↔ memory.Clean pml4 i (j :: path) := by
        unfold PageMemory.Clean
        rw [h]
        refine forall₂_congr fun node there => forall₃_congr fun k _ other => ?_
        rw [words i _ node (suffix_refl _) there k other]
      exact imp_congr spare (and_congr clean later)

theorem TableTree.tidy_write {entry : Nat} (tree : TableTree memory pml4) (hin : Indices (j :: path))
    (hr : memory.tableAt pml4 path = some parent)
    (words : ∀ other k, memory'.words other k = if other = parent.2 ∧ k = j then entry else memory.words other k)
    (tables : ∀ path', path' <:+ path → memory'.tableAt pml4 path' = memory.tableAt pml4 path') :
    memory'.Tidy pml4 (j :: path) ↔ memory.Tidy pml4 (j :: path) := by
  refine @tidy_congr memory memory' pml4 (j :: path) tables fun i rest node part there k other => ?_
  rw [words, if_neg]
  rintro ⟨sameTable, rfl⟩
  obtain rfl := tree.once path rest parent.1 node.1 parent.2 hin.tail (hin.suffix part).tail hr (sameTable ▸ there)
  rcases suffix_cons_iff.mp part with eq | upper
  · exact other (cons.inj eq).1.symm
  · exact absurd upper.length_le (by simp)

theorem Climb.tidy_iff (climb : Climb pml4 memory path log memory') (tree : TableTree memory pml4) (hin : Indices path) :
    memory.Tidy pml4 path ↔ ∀ i rest node, (i :: rest) <:+ path → memory.tableAt pml4 rest = some node → node.2 ∈ log →
      ∀ k < tableSize, k ≠ i → memory.words node.2 k = 0 := by
  induction climb with
  | root => exact ⟨fun _ _ _ _ _ _ mem => (nomatch mem), fun _ => trivial⟩
  | @stays memory i k path node hr lt other h =>
    refine ⟨fun _ _ _ _ _ _ mem => (nomatch mem), fun _ => ?_⟩
    cases path with
    | nil => trivial
    | cons j path => exact fun spare => nomatch h.symm.trans (spare node hr k lt other)
  | @drops memory memory' i j path log node parent hr named barren zero climb ih =>
    have drops := tree.drop hin.tail hr named barren
    have inner : ∀ path', path' <:+ path →
        ((memory.write parent.2 j 0).free node.2).tableAt pml4 path' = memory.tableAt pml4 path' :=
      fun _ part => drops.inner hin.tail.tail part
    have words : ∀ other k, ((memory.write parent.2 j 0).free node.2).words other k =
        if other = parent.2 ∧ k = j then 0 else memory.words other k := write_words memory parent.2 j 0
    have tidy := tree.tidy_write hin.tail hr words inner
    constructor
    · intro holds i' rest other part there mem k lt ne
      obtain ⟨clean, above⟩ := holds fun node' named' k lt _ => by
        obtain rfl := some.inj (named.symm.trans named')
        exact barren k lt
      rcases suffix_cons_iff.mp part with eq | upper
      · cases eq
        exact clean other there k lt ne
      · have part' := suffix_of_cons upper
        have mem := (mem_cons.mp mem).resolve_left (tree.apart hin.tail named part' there)
        have value := (ih drops.tree hin.tail).mp (tidy.mpr above) i' rest other upper
          ((inner rest part').trans there) mem k lt ne
        have kept : ¬(other.2 = parent.2 ∧ k = j) := by
          rintro ⟨sameTable, rfl⟩
          obtain rfl := tree.once path rest parent.1 other.1 parent.2 hin.tail.tail (hin.tail.tail.suffix part')
            hr (sameTable ▸ there)
          rcases suffix_cons_iff.mp upper with eq | deeper
          · exact ne (cons.inj eq).1.symm
          · exact absurd deeper.length_le (by simp)
        exact ((words other.2 k).trans (if_neg kept)).symm.trans value
    · intro holds spare
      refine ⟨fun other there k lt ne => ?_, tidy.mp ((ih drops.tree hin.tail).mpr ?_)⟩
      · grind
      · intro i' rest other upper there mem k lt ne
        have part' := suffix_of_cons upper
        have value := holds i' rest other (upper.trans (suffix_cons i _)) ((inner rest part').symm.trans there)
          (.tail _ mem) k lt ne
        refine (words other.2 k).trans ?_
        split
        case isTrue => rfl
        case isFalse => exact value

end

/-! ## One page -/

/-- The page of an address is gone, and nothing else but the tables that became empty; `log` holds these. -/
structure UnmappedWith (memory memory' : PageMemory) (pml4 virtAddr : Nat) (log : List Nat) : Prop where
  gone : memory'.pageAt pml4 (pathOf virtAddr) = none ∧ memory'.getPhysicalAddress pml4 virtAddr = 0
  translations : ∀ other, pathOf other ≠ pathOf virtAddr →
    memory'.getPhysicalAddress pml4 other = memory.getPhysicalAddress pml4 other
  retained : ∀ path, Indices path → ¬path <:+ pathOf virtAddr → memory'.wordAt pml4 path = memory.wordAt pml4 path
  history : memory'.freed = memory.freed ++ log
  once : log.Nodup
  inUse : ∀ addr, memory'.InUse addr ↔ memory.InUse addr ∧ addr ∉ log
  tables : ∀ frame ∈ log, ∃ path level, path <:+ (pathOf virtAddr).tail ∧ path ≠ [] ∧
    memory.tableAt pml4 path = some (level, frame)
  empty : ∀ path node, path <:+ (pathOf virtAddr).tail → path ≠ [] → memory.tableAt pml4 path = some node →
    (node.2 ∈ log ↔ ∀ k < tableSize, memory'.words node.2 k = 0)
  parents : ∀ path node, path <:+ (pathOf virtAddr).tail → path ≠ [] → memory.tableAt pml4 path = some node →
    node.2 ∈ log → memory'.wordAt pml4 path = 0
  tree : TableTree memory' pml4

def Unmapped (memory memory' : PageMemory) (pml4 virtAddr : Nat) : Prop :=
  ∃ log, UnmappedWith memory memory' pml4 virtAddr log

section

variable {memory memory' : PageMemory} {pml4 virtAddr i : Nat} {path log : List Nat} {node : Nat × Nat}

theorem unmapEntry_cases (memory : PageMemory) (pml4 virtAddr : Nat) :
    (memory.pageAt pml4 (pathOf virtAddr) = none ∧ memory.unmapEntry pml4 virtAddr = (false, memory)) ∨
      ∃ pt steps, memory.tableAt pml4 (pathOf virtAddr).tail = some (0, pt) ∧
        present (memory.words pt (tableIndex 0 virtAddr)) = true ∧ Along memory pml4 (pathOf virtAddr) steps ∧
        memory.unmapEntry pml4 virtAddr = (true, (memory.write pt (tableIndex 0 virtAddr) 0).reclaimAll steps) := by
  unfold PageMemory.unmapEntry
  simp only [pathOf, tail_cons]
  rcases upper_entry (tableAt_nil memory pml4) (tableIndex 3 virtAddr) with
    ⟨absent, lost, _⟩ | ⟨_, ⟨notTop, _⟩, _⟩ | ⟨here3, _, reached3, _⟩
  · rw [absent, pageAt_lost (tableAt_of_lost (tableAt_of_lost lost _) _)]
    exact .inl ⟨rfl, rfl⟩
  · exact absurd rfl notTop
  rw [here3]
  rcases upper_entry reached3 (tableIndex 2 virtAddr) with
    ⟨absent, lost, _⟩ | ⟨h, ⟨_, large⟩, lost, _⟩ | ⟨here2, plain2, reached2, _⟩
  · rw [absent, pageAt_lost (tableAt_of_lost lost _)]
    exact .inl ⟨rfl, rfl⟩
  · rw [h, large, pageAt_lost (tableAt_of_lost lost _)]
    exact .inl ⟨rfl, rfl⟩
  rw [here2, plain2.resolve_left (by decide)]
  rcases upper_entry reached2 (tableIndex 1 virtAddr) with
    ⟨absent, lost, _⟩ | ⟨h, ⟨_, large⟩, lost, _⟩ | ⟨here1, plain1, reached1, _⟩
  · rw [absent, pageAt_lost lost]
    exact .inl ⟨rfl, rfl⟩
  · rw [h, large, pageAt_lost lost]
    exact .inl ⟨rfl, rfl⟩
  rw [here1, plain1.resolve_left (by decide)]
  cases here0 : present (memory.words (entryAddr (memory.words (entryAddr (memory.words (entryAddr (memory.words pml4
      (tableIndex 3 virtAddr))) (tableIndex 2 virtAddr))) (tableIndex 1 virtAddr))) (tableIndex 0 virtAddr)) with
  | false =>
    rw [pageAt_cons reached1, PageMemory.levelEntry, mapsPage_absent here0]
    exact .inl ⟨rfl, rfl⟩
  | true =>
    refine .inr ⟨_, _, reached1, here0,
      .under reached2 reached1 (.under reached3 reached2 (.under (tableAt_nil memory pml4) reached3 (.root _))), ?_⟩
    simp only [Bool.not_true, Bool.or_self, Bool.false_eq_true, if_false, reclaimAll_cons]
    rw [PageMemory.reclaimAll, foldl_nil]

section

variable (pages : ∀ path, Indices path →
  memory'.pageAt pml4 path = if path = pathOf virtAddr then none else memory.pageAt pml4 path)

include pages

theorem frameAt_other (hin : Indices path) (other : path ≠ pathOf virtAddr) :
    memory'.frameAt pml4 path = memory.frameAt pml4 path := by
  unfold PageMemory.frameAt
  rw [pages path hin, if_neg other]

theorem getPhysicalAddress_other {other : Nat} (ne : pathOf other ≠ pathOf virtAddr) :
    memory'.getPhysicalAddress pml4 other = memory.getPhysicalAddress pml4 other := by
  have hin := indices_pathOf other
  have short : ∀ path, path.length < 4 → path ≠ pathOf virtAddr := by
    rintro path bound rfl
    exact absurd bound (Nat.lt_irrefl 4)
  have page := frameAt_other pages hin ne
  have large : memory'.frameAt pml4 (pathOf other).tail = memory.frameAt pml4 (pathOf other).tail :=
    frameAt_other pages hin.tail (short _ (by decide : 3 < 4))
  have giga : memory'.frameAt pml4 (pathOf other).tail.tail = memory.frameAt pml4 (pathOf other).tail.tail :=
    frameAt_other pages hin.tail.tail (short _ (by decide : 2 < 4))
  rw [getPhysicalAddress_eq, getPhysicalAddress_eq]
  unfold resolve
  rw [page, large, giga]

theorem getPhysicalAddress_gone (hr : memory.tableAt pml4 (pathOf virtAddr).tail = some node) :
    memory'.getPhysicalAddress pml4 virtAddr = 0 := by
  have hin := indices_pathOf virtAddr
  obtain ⟨upper, above⟩ := tableAt_suffix (tail_suffix (pathOf virtAddr).tail) hr
  have h : memory'.frameAt pml4 (pathOf virtAddr) = none := by
    unfold PageMemory.frameAt
    rw [pages _ hin, if_pos rfl]
    rfl
  have tables : ∀ path i, Indices (i :: path) → path.length < 3 → ∀ other, memory.tableAt pml4 (i :: path) = some other →
      memory'.frameAt pml4 (i :: path) = none := by
    intro path i hin' bound other there
    rw [frameAt_other pages hin', PageMemory.frameAt, pageAt_table there]
    · rfl
    · intro eq
      have length : path.length + 1 = 4 := congrArg List.length eq
      omega
  have large : memory'.frameAt pml4 (pathOf virtAddr).tail = none :=
    tables _ _ hin.tail (by decide : 2 < 3) node hr
  have giga : memory'.frameAt pml4 (pathOf virtAddr).tail.tail = none :=
    tables _ _ hin.tail.tail (by decide : 1 < 3) upper above
  rw [getPhysicalAddress_eq]
  unfold resolve
  rw [h, large, giga]

end

theorem unmapped_of_climb {pt : Nat} (tree : TableTree memory pml4)
    (hr : memory.tableAt pml4 (pathOf virtAddr).tail = some (0, pt))
    (climb : Climb pml4 (memory.write pt (tableIndex 0 virtAddr) 0) (pathOf virtAddr) log memory') :
    Unmapped memory memory' pml4 virtAddr ↔ memory.Tidy pml4 (pathOf virtAddr) := by
  have hin := indices_pathOf virtAddr
  obtain ⟨maps, _⟩ := tree.writeLast hin hr 0
  have walks : ∀ path, Indices path →
      (memory.write pt (tableIndex 0 virtAddr) 0).tableAt pml4 path = memory.tableAt pml4 path :=
    fun _ hin' => tree.tableAt_writeLast hin hr 0 hin'
  have words := write_words memory pt (tableIndex 0 virtAddr) 0
  have freed : (memory.write pt (tableIndex 0 virtAddr) 0).freed = memory.freed := rfl
  have inUse : ∀ addr, (memory.write pt (tableIndex 0 virtAddr) 0).InUse addr ↔ memory.InUse addr := fun _ => .rfl
  generalize memory.write pt (tableIndex 0 virtAddr) 0 = cleared at climb maps walks words freed inUse
  have climbed := climb.climbed maps.tree hin
  have upper : ∀ path, path <:+ (pathOf virtAddr).tail → cleared.tableAt pml4 path = memory.tableAt pml4 path :=
    fun path part => walks path (hin.tail.suffix part)
  have tidy : cleared.Tidy pml4 (pathOf virtAddr) ↔ memory.Tidy pml4 (pathOf virtAddr) :=
    @TableTree.tidy_write memory cleared pml4 _ _ (0, pt) 0 tree hin hr words upper
  -- a table above the page keeps its words but those on the path
  have kept : ∀ i rest node, (i :: rest) <:+ pathOf virtAddr → memory.tableAt pml4 rest = some node →
      ∀ k, k ≠ i → memory'.words node.2 k = cleared.words node.2 k := by
    intro i rest node part there k other
    apply climbed.words
    rintro j rest' parent part' there' ⟨sameTable, rfl⟩
    have part' : (k :: rest') <:+ pathOf virtAddr := part'.trans (tail_suffix _)
    rw [walks rest' (hin.suffix part').tail] at there'
    obtain rfl := tree.once rest rest' node.1 parent.1 node.2 (hin.suffix part).tail (hin.suffix part').tail there
      (sameTable ▸ there')
    exact other (index_eq part' part)
  rw [← tidy, climb.tidy_iff maps.tree hin]
  constructor
  · rintro ⟨log', unmapped⟩ i rest node part there mem k lt other
    have eq : log' = log := append_cancel_left (unmapped.history.symm.trans (freed ▸ climbed.history))
    have notRoot : rest ≠ [] := by
      rintro rfl
      obtain rfl := some.inj there
      obtain ⟨path, level, part', inner, there'⟩ := climbed.freed pml4 mem
      exact inner (maps.tree.once [] path 3 level pml4 indices_nil (hin.tail.suffix part') there there')
    rw [walks rest (hin.suffix part).tail] at there
    rw [← kept i rest node part there k other]
    exact (unmapped.empty rest node (suffix_of_cons part) notRoot there).mp (eq ▸ mem) k lt
  · intro holds
    have pages : ∀ path, Indices path →
        memory'.pageAt pml4 path = if path = pathOf virtAddr then none else memory.pageAt pml4 path :=
      fun path hin' => (climbed.pages path hin').trans (maps.pages path hin')
    refine ⟨log, ⟨?_, getPhysicalAddress_gone pages hr⟩, fun other => getPhysicalAddress_other pages, ?_, ?_,
      climbed.nodup, ?_, ?_, ?_, ?_, climbed.tree⟩
    · rw [pages _ hin, if_pos rfl]
    · intro path hin' off
      cases path with
      | nil => rfl
      | cons k path =>
        -- the entry was not written
        have untouched : ∀ node, memory.tableAt pml4 path = some node → cleared.words node.2 k = memory.words node.2 k := by
          intro node there
          rw [words, if_neg]
          rintro ⟨sameTable, rfl⟩
          obtain rfl := tree.once path (pathOf virtAddr).tail node.1 0 node.2 hin'.tail hin.tail there
            (sameTable ▸ hr)
          exact off (suffix_refl _)
        rcases climbed.tables path hin'.tail with eq | ⟨lost, node, there, mem⟩
        · rw [walks path hin'.tail] at eq
          cases there : memory.tableAt pml4 path with
          | none => rw [wordAt_lost there, wordAt_lost (eq.trans there)]
          | some node =>
            rw [wordAt_cons there, wordAt_cons (eq.trans there), climbed.words, untouched node there]
            rintro j rest parent part above ⟨sameTable, rfl⟩
            have part : (k :: rest) <:+ pathOf virtAddr := part.trans (tail_suffix _)
            rw [walks rest (hin.suffix part).tail] at above
            obtain rfl := tree.once path rest node.1 parent.1 node.2 hin'.tail (hin.suffix part).tail there
              (sameTable ▸ above)
            exact off part
        · -- the table was given back, so it is on the path
          obtain ⟨path', level, part, _, again⟩ := climbed.freed node.2 mem
          obtain rfl := maps.tree.once path path' node.1 level node.2 hin'.tail (hin.tail.suffix part) there again
          obtain ⟨i, part'⟩ := exists_index part (tableIndex 0 virtAddr)
          have there' := (upper _ part).symm.trans there
          have other : k ≠ i := by
            rintro rfl
            exact off part'
          rw [wordAt_lost lost, wordAt_cons there', ← untouched node there',
            holds i _ node part' there mem k hin'.head other]
    · rw [climbed.history, freed]
    · intro addr
      rw [climbed.inUse, inUse]
    · intro frame mem
      obtain ⟨path, level, part, inner, there⟩ := climbed.freed frame mem
      exact ⟨path, level, part, inner, upper path part ▸ there⟩
    · intro path node part inner there
      obtain ⟨i, part'⟩ := exists_index part (tableIndex 0 virtAddr)
      have there' := (upper path part).trans there
      constructor
      · intro mem k lt
        by_cases h : k = i
        · rw [h]
          exact climbed.zero i path node part' there' mem
        · rw [kept i path node part' there k h]
          exact holds i path node part' there' mem k lt h
      · intro zero
        by_contra absent
        obtain ⟨k, lt, h⟩ := climbed.stays i path node part' inner there' absent
        rw [zero k lt] at h
        exact absurd h (by decide)
    · intro path node part inner there mem
      cases path with
      | nil => exact absurd rfl inner
      | cons j rest => exact climbed.lost j rest node part ((upper _ part).trans there) mem

/-- `UnmapPage` is exact if and only if the tables that it gives back are tidy. -/
theorem unmapPage_exact_iff {paging paging' : Paging} {removed : Bool} (tree : TableTree paging.memory pml4)
    (done : paging.unmapPage pml4 virtAddr = some (removed, paging')) :
    (if removed then Unmapped paging.memory paging'.memory pml4 virtAddr else paging' = paging) ↔
      ((paging.memory.pageAt pml4 (pathOf virtAddr)).isSome → paging.memory.Tidy pml4 (pathOf virtAddr)) := by
  unfold Paging.unmapPage at done
  rcases unmapEntry_cases paging.memory pml4 virtAddr with ⟨nothing, stops⟩ | ⟨pt, steps, hr, h, along, removes⟩
  · rw [stops] at done
    cases done
    rw [nothing]
    exact ⟨fun _ isSome => (nomatch isSome), fun _ => rfl⟩
  · rw [removes] at done
    obtain ⟨pool, _, eq⟩ := Option.map_eq_some_iff.mp done
    cases eq
    have hin := indices_pathOf virtAddr
    have walks : ∀ path, Indices path →
        (paging.memory.write pt (tableIndex 0 virtAddr) 0).tableAt pml4 path = paging.memory.tableAt pml4 path :=
      fun _ hin' => tree.tableAt_writeLast hin hr 0 hin'
    have zero : (paging.memory.write pt (tableIndex 0 virtAddr) 0).wordAt pml4 (pathOf virtAddr) = 0 := by
      have stays := (walks (pathOf virtAddr).tail hin.tail).trans hr
      exact (wordAt_cons stays _).trans ((write_words _ _ _ _ _ _).trans (if_pos ⟨rfl, rfl⟩))
    obtain ⟨log, climb⟩ := (tree.writeLast hin hr 0).1.tree.climb hin
      (along.congr fun path part => walks path (hin.tail.suffix part)) zero
    have some_ : (paging.memory.pageAt pml4 (pathOf virtAddr)).isSome := by
      have page := (pageAt_cons hr (tableIndex 0 virtAddr)).trans (if_pos h)
      exact Option.isSome_iff_exists.mpr ⟨_, page⟩
    rw [if_pos rfl, unmapped_of_climb tree hr climb]
    exact ⟨fun tidy _ => tidy, fun tidy => tidy some_⟩

/-! ## One table at each level -/

/-- A single path of tables at 2 MiB, down to the entries `leaf`. -/
def chainMemory (leaf : Nat → Nat) : PageMemory :=
  ⟨⟨fun _ => 255, fun _ => 255⟩, fun table i => if table = 0x203000 then leaf i else if i = 0 then table + 0x1003 else 0, []⟩

theorem inUse_of_full (full : memory.frames.phys = fun _ => 255) {addr : Nat} (managed : Managed addr) : memory.InUse addr := by
  obtain ⟨k, bound, rfl⟩ := managed
  have bits : ∀ j < 8, (255#8).getLsbD j = true := by decide
  refine ⟨k, bound, rfl, ?_⟩
  unfold Bitmaps.used
  rw [full, bitmapTest_eq]
  exact bits (k % 8) (Nat.mod_lt _ (by decide))

theorem chainMemory_below (leaf : Nat → Nat) {n i : Nat} (lt : n < 3) {node : Nat × Nat}
    (named : below ((chainMemory leaf).levelEntry (3 - n, 0x200000 + 0x1000 * n) i) = some node) :
    i = 0 ∧ node = (2 - n, 0x200000 + 0x1000 * (n + 1)) := by
  have table : 0x200000 + 0x1000 * n ≠ 0x203000 := by omega
  by_cases zero : i = 0
  · subst zero
    refine ⟨rfl, ?_⟩
    simp only [PageMemory.levelEntry, chainMemory, if_neg table, if_true] at named
    have three : n = 0 ∨ n = 1 ∨ n = 2 := by omega
    rcases three with rfl | rfl | rfl <;> exact (some.inj named).symm
  · simp only [PageMemory.levelEntry, chainMemory, if_neg table, if_neg zero] at named
    cases (below_absent rfl _).symm.trans named

theorem chainMemory_tableAt (leaf : Nat → Nat) {path : List Nat} {node : Nat × Nat}
    (hr : (chainMemory leaf).tableAt 0x200000 path = some node) :
    path = replicate path.length 0 ∧ node = (3 - path.length, 0x200000 + 0x1000 * path.length) := by
  have height := tableAt_level hr
  induction path generalizing node with
  | nil => exact ⟨rfl, (some.inj hr).symm⟩
  | cons i path ih =>
    obtain ⟨parent, above, named⟩ := Option.bind_eq_some_iff.mp hr
    obtain ⟨zeros, rfl⟩ := ih above (tableAt_level above)
    rw [length_cons] at height ⊢
    obtain ⟨rfl, rfl⟩ := chainMemory_below leaf (by omega) named
    exact ⟨by rw [replicate_succ, ← zeros], by rw [show 3 - (path.length + 1) = 2 - path.length by omega]⟩

theorem chainMemory_tree (leaf : Nat → Nat) : TableTree (chainMemory leaf) 0x200000 where
  taken _ _ managed := inUse_of_full rfl managed
  once path path' level level' addr _ _ reached reached' := by
    obtain ⟨zeros, same⟩ := chainMemory_tableAt leaf reached
    obtain ⟨zeros', same'⟩ := chainMemory_tableAt leaf reached'
    have addr := congrArg Prod.snd same
    have addr' := congrArg Prod.snd same'
    rw [zeros, zeros', show path'.length = path.length by omega]

/-- The tables of `chainMemory`, with a virtual pool that has no regions. -/
def chainPaging (leaf : Nat → Nat) : Paging := ⟨chainMemory leaf, ⟨fun _ => ⟨0, 0⟩, fun _ => none, none, none⟩⟩

/-- Address zero is never given back to the pool. -/
theorem chainPaging_unmapPage {leaf : Nat → Nat} (removed : ((chainMemory leaf).unmapEntry 0x200000 0).1 = true) :
    (chainPaging leaf).unmapPage 0x200000 0 =
      some (true, ⟨((chainMemory leaf).unmapEntry 0x200000 0).2, (chainPaging leaf).pool⟩) := by
  unfold Paging.unmapPage chainPaging
  generalize (chainMemory leaf).unmapEntry 0x200000 0 = res at removed
  obtain ⟨ok, memory⟩ := res
  cases removed
  rfl

def onePage (i : Nat) : Nat := if i = 0 then 0x80003 else 0

/-- The only page of a table tree goes away with all tables but the first. -/
theorem unmapPage_exact_single :
    ∃ paging', (chainPaging onePage).unmapPage 0x200000 0 = some (true, paging') ∧
      Unmapped (chainMemory onePage) paging'.memory 0x200000 0 := by
  have path : pathOf 0 = [0, 0, 0, 0] := by decide
  have clean : ∀ path, (chainMemory onePage).Clean 0x200000 0 path := by
    intro path node hr k _ other
    obtain ⟨_, rfl⟩ := chainMemory_tableAt onePage hr
    simp only [chainMemory, onePage, if_neg other, ite_self]
  have done := @chainPaging_unmapPage onePage (by decide +kernel)
  refine ⟨_, done, (unmapPage_exact_iff (chainMemory_tree onePage) done).mpr fun _ => ?_⟩
  rw [path]
  exact fun _ => ⟨clean _, fun _ => ⟨clean _, fun _ => ⟨clean _, trivial⟩⟩⟩

/-- A page, and after it one that `mprotect` has left without rights. -/
def guardedPage (i : Nat) : Nat := if i = 0 then 0x80003 else if i = 1 then 0x90000 ||| PageMemory.protFlags 0 else 0

/-- The word of the second page names a frame, and is lost with the table. -/
theorem unmapPage_loses_guarded :
    TableTree (chainMemory guardedPage) 0x200000 ∧
      ∃ paging', (chainPaging guardedPage).unmapPage 0x200000 0 = some (true, paging') ∧
        (chainMemory guardedPage).wordAt 0x200000 [1, 0, 0, 0] = 0x90000 ||| PageMemory.protFlags 0 ∧
        paging'.memory.wordAt 0x200000 [1, 0, 0, 0] = 0 ∧ 0x203000 ∈ paging'.memory.freed ∧
        ¬Unmapped (chainMemory guardedPage) paging'.memory 0x200000 0 := by
  have done := @chainPaging_unmapPage guardedPage (by decide +kernel)
  have pre : (chainMemory guardedPage).wordAt 0x200000 [1, 0, 0, 0] = 0x90000 ||| PageMemory.protFlags 0 := by decide +kernel
  have after : ((chainMemory guardedPage).unmapEntry 0x200000 0).2.wordAt 0x200000 [1, 0, 0, 0] = 0 := by decide +kernel
  have freed : 0x203000 ∈ ((chainMemory guardedPage).unmapEntry 0x200000 0).2.freed := by decide +kernel
  generalize ((chainMemory guardedPage).unmapEntry 0x200000 0).2 = memory' at done after freed
  refine ⟨chainMemory_tree guardedPage, _, done, pre, after, freed, ?_⟩
  rintro ⟨log, unmapped⟩
  have hin : Indices [1, 0, 0, 0] := by
    unfold Indices
    decide
  have kept := unmapped.retained [1, 0, 0, 0] hin (by decide)
  exact absurd (after.symm.trans kept) (by decide)

end

end RosKernel.Memory
