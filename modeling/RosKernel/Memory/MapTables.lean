import RosKernel.Memory.TableTree

/-! `MapPages` on one page table.

On its way to a page the call adds the tables that are missing. Then it writes one entry, and the
loop writes one entry for each page.
-/

set_option autoImplicit false

namespace RosKernel.Memory

open Library List Option

/-- The levels of the path with the check that each makes; only the entries of the top level are not checked. -/
def checks : List Nat → List (Nat × Bool)
  | [] => []
  | i :: rest => (i, rest.length != 2) :: checks rest

/-- What a walk down some levels comes to: the last table, an absent entry or a large page. -/
inductive Way where
  | clear (table : Nat)
  | missing
  | large (level : Nat)
  deriving DecidableEq

def PageMemory.way (memory : PageMemory) (table : Nat) : List Nat → Way
  | [] => .clear table
  | i :: rest =>
    let entry := memory.words table i
    if !present entry then .missing
    else if rest.length != 2 && huge entry then .large rest.length
    else memory.way (entryAddr entry) rest

section

variable {memory memory' : PageMemory} {pml4 i level table : Nat} {path : List Nat}

theorem below_writable (level entry : Nat) : below (level, entry ||| pageRW) = below (level, entry) := by
  obtain ⟨addr, h, large⟩ := writable_entry entry
  cases level with
  | zero => rfl
  | succ level =>
    simp only [below, h, large]
    rw [addr]

theorem tableAt_widen (memory : PageMemory) (pml4 table i : Nat) {path' : List Nat} (hin' : Indices path') :
    (memory.write table i (memory.words table i ||| pageRW)).tableAt pml4 path' = memory.tableAt pml4 path' := by
  apply tableAt_congr _ hin'
  intro _ node j _ _
  unfold PageMemory.levelEntry
  rw [write_words]
  split
  case isTrue h => rw [h.1, h.2, below_writable]
  case isFalse => rfl

theorem TableTree.widen (tree : TableTree memory pml4) (hin : Indices (i :: path))
    (hr : memory.tableAt pml4 path = some (level, table)) {child : Nat × Nat}
    (named : memory.tableAt pml4 (i :: path) = some child) :
    Extends memory (memory.write table i (memory.words table i ||| pageRW)) pml4 := by
  have walks : ∀ path', Indices path' →
      (memory.write table i (memory.words table i ||| pageRW)).tableAt pml4 path' = memory.tableAt pml4 path' :=
    fun _ hin' => tableAt_widen memory pml4 table i hin'
  refine ⟨.of_walks tree walks fun _ => .rfl, fun path' hin' => ?_⟩
  cases path' with
  | nil => rfl
  | cons j path' =>
    by_cases h : j :: path' = i :: path
    · rw [h, pageAt_table named, pageAt_table ((walks _ hin).trans named)]
    · apply pageAt_congr (walks path' hin'.tail)
      intro node there
      rw [write_words, if_neg]
      rintro ⟨sameTable, rfl⟩
      obtain rfl := tree.once path path' level node.1 table hin.tail hin'.tail hr (sameTable ▸ there)
      exact h rfl

section

variable {frame : Nat} (tree : TableTree memory pml4) (hin : Indices (i :: path))
    (hr : memory.tableAt pml4 path = some (level + 1, table)) (absent : present (memory.words table i) = false)
    (managed : Managed frame) (fresh : ¬memory.InUse frame)

include tree hin hr absent managed fresh

theorem TableTree.tableAt_addTable
    (words : ∀ other j, memory'.words other j =
      if other = table ∧ j = i then tableEntry frame else if other = frame then 0 else memory.words other j)
    {path' : List Nat} (hin' : Indices path') :
    memory'.tableAt pml4 path' = if path' = i :: path then some (level, frame) else memory.tableAt pml4 path' := by
  obtain ⟨addr, h, plain⟩ := tableEntry_spec managed.mappable
  have ne : ∀ other, memory.IsTable pml4 other → other ≠ frame := by
    rintro other isTable rfl
    exact fresh (tree.taken other isTable managed)
  have notTable : table ≠ frame := ne table ⟨path, level + 1, hin.tail, hr⟩
  have lost : below (memory.levelEntry (level + 1, table) i) = none := by
    simp [below, PageMemory.levelEntry, absent]
  have new : below (memory'.levelEntry (level + 1, table) i) = some (level, frame) := by
    simp [below, PageMemory.levelEntry, words, h, plain, addr]
  rw [← new]
  apply tree.tableAt_set hin.tail hr
  · grind
  · intro child named
    cases lost.symm.trans named
  · intro child named j _
    obtain rfl := some.inj (new.symm.trans named)
    have blank : memory'.words frame j = 0 := by rw [words, if_neg fun both => notTable both.1.symm, if_pos rfl]
    have zero : memory'.levelEntry (level, frame) j = (level, 0) := congrArg (Prod.mk level) blank
    rw [zero]
    cases level <;> rfl
  · exact hin'

theorem TableTree.addTable (inUse : ∀ addr, memory'.InUse addr ↔ memory.InUse addr ∨ addr = frame)
    (words : ∀ other j, memory'.words other j =
      if other = table ∧ j = i then tableEntry frame else if other = frame then 0 else memory.words other j) :
    Extends memory memory' pml4 ∧ memory'.tableAt pml4 (i :: path) = some (level, frame) := by
  have ne : ∀ other, memory.IsTable pml4 other → other ≠ frame := by
    rintro other isTable rfl
    exact fresh (tree.taken other isTable managed)
  have notTable : table ≠ frame := ne table ⟨path, level + 1, hin.tail, hr⟩
  have lost : below (memory.levelEntry (level + 1, table) i) = none := by
    simp [below, PageMemory.levelEntry, absent]
  have blank : ∀ j, memory'.words frame j = 0 := by
    intro j
    rw [words, if_neg fun both => notTable both.1.symm, if_pos rfl]
  have eq : ∀ other j, memory.IsTable pml4 other → ¬(other = table ∧ j = i) →
      memory'.words other j = memory.words other j := by
    intro other j isTable elsewhere
    rw [words, if_neg elsewhere, if_neg (ne other isTable)]
  have walks : ∀ path', Indices path' → memory'.tableAt pml4 path' =
      if path' = i :: path then some (level, frame) else memory.tableAt pml4 path' :=
    fun _ hin' => tree.tableAt_addTable hin hr absent managed fresh words hin'
  have pre : memory.tableAt pml4 (i :: path) = none := by
    rw [tableAt_cons, hr, Option.bind_some, lost]
  have named : memory'.tableAt pml4 (i :: path) = some (level, frame) := by rw [walks _ hin, if_pos rfl]
  have old : ∀ path' node, Indices path' → memory.tableAt pml4 path' = some node → memory'.tableAt pml4 path' = some node := by
    intro path' node hin' there
    rw [walks path' hin', if_neg, there]
    rintro rfl
    cases pre.symm.trans there
  have tables : ∀ a, memory'.IsTable pml4 a ↔ memory.IsTable pml4 a ∨ a = frame := by
    intro a
    constructor
    · rintro ⟨path', level', hin', there⟩
      rw [walks path' hin'] at there
      split at there
      case isTrue =>
        obtain ⟨_, eq⟩ := Prod.mk.injEq .. ▸ some.inj there
        exact .inr eq.symm
      case isFalse => exact .inl ⟨path', level', hin', there⟩
    · rintro (⟨path', level', hin', there⟩ | rfl)
      · exact ⟨path', level', hin', old path' _ hin' there⟩
      · exact ⟨i :: path, level, hin, named⟩
  refine ⟨⟨⟨⟨?_, ?_⟩, old, ?_⟩, ?_⟩, named⟩
  · intro a isTable isManaged
    rw [inUse]
    exact ((tables a).mp isTable).imp (fun isOld => tree.taken a isOld isManaged) id
  · -- the new frame is on no older path
    have only : ∀ path' level' a, Indices path' → memory'.tableAt pml4 path' = some (level', a) → a = frame →
        path' = i :: path := by
      rintro path' level' a hin' there rfl
      by_contra elsewhere
      rw [walks path' hin', if_neg elsewhere] at there
      exact ne a ⟨path', level', hin', there⟩ rfl
    intro one other level' level'' a insideOne insideOther reachedOne reachedOther
    by_cases isNew : a = frame
    · grind
    · have away : ∀ path' level', Indices path' → memory'.tableAt pml4 path' = some (level', a) →
          memory.tableAt pml4 path' = some (level', a) := by
        intro path' level' hin' there
        rw [walks path' hin'] at there
        split at there
        case isTrue =>
          obtain ⟨_, eq⟩ := Prod.mk.injEq .. ▸ some.inj there
          exact absurd eq.symm isNew
        case isFalse => exact there
      exact tree.once one other level' level'' a insideOne insideOther (away one level' insideOne reachedOne)
        (away other level'' insideOther reachedOther)
  · intro a
    rw [inUse, tables]
    constructor
    · rintro (used | rfl)
      · exact .inl used
      · grind
    · rintro (used | ⟨isOld | isNew, notOld⟩)
      · exact .inl used
      · exact absurd isOld notOld
      · exact .inr isNew
  · intro path' hin'
    cases path' with
    | nil => rfl
    | cons j path' =>
      by_cases through : path' = i :: path
      · subst through
        rw [pageAt_lost pre, pageAt_cons named]
        have zero : memory'.levelEntry (level, frame) j = (level, 0) := congrArg (Prod.mk level) (blank j)
        rw [zero]
        cases level <;> rfl
      · have kept : memory'.tableAt pml4 path' = memory.tableAt pml4 path' := by rw [walks path' hin'.tail, if_neg through]
        by_cases h : j :: path' = i :: path
        · cases h
          rw [pageAt_table named, pageAt_cons hr]
          simp [PageMemory.levelEntry, mapsPage, absent]
        · apply pageAt_congr kept
          intro node there
          apply eq node.2 j (isTable_of_reached hin'.tail there)
          rintro ⟨sameTable, rfl⟩
          obtain rfl := tree.once path path' (level + 1) node.1 table hin.tail hin'.tail hr (sameTable ▸ there)
          exact h rfl

end

/-- Only rights change: a walk meets the same tables, pages and absent entries as before. -/
structure Widens (memory memory' : PageMemory) (pml4 : Nat) : Prop extends Extends memory memory' pml4 where
  frames : memory'.frames = memory.frames
  ways : ∀ top rest, memory'.way top rest = memory.way top rest

theorem Widens.refl (tree : TableTree memory pml4) : Widens memory memory pml4 := ⟨.refl tree, rfl, fun _ _ => rfl⟩

theorem Widens.trans {memory'' : PageMemory} (first : Widens memory memory' pml4) (snd : Widens memory' memory'' pml4) :
    Widens memory memory'' pml4 where
  toExtends := first.toExtends.trans snd.toExtends
  frames := snd.frames.trans first.frames
  ways top rest := (snd.ways top rest).trans (first.ways top rest)

theorem way_writable (memory : PageMemory) (table i top : Nat) (rest : List Nat) :
    (memory.write table i (memory.words table i ||| pageRW)).way top rest = memory.way top rest := by
  induction rest generalizing top with
  | nil => rfl
  | cons j rest ih =>
    obtain ⟨addr, h, large⟩ := writable_entry (memory.words table i)
    simp only [PageMemory.way, ih, write_words]
    split
    case isTrue eq => rw [eq.1, eq.2, addr, h, large]
    case isFalse => rfl

/-- What one level of `MapPages` can do. -/
inductive Enters (memory : PageMemory) (pml4 level table i : Nat) (path : List Nat) : Option Nat → PageMemory → Prop where
  | found {next : Nat} {memory' : PageMemory} : memory.tableAt pml4 (i :: path) = some (level, next) →
      Widens memory memory' pml4 → Enters memory pml4 level table i path (some next) memory'
  | large : level ≠ 2 → present (memory.words table i) = true → huge (memory.words table i) = true →
      Enters memory pml4 level table i path none memory
  | full : present (memory.words table i) = false → memory.allocPage = (0, memory) →
      Enters memory pml4 level table i path none memory
  | made {frame : Nat} {memory' : PageMemory} : present (memory.words table i) = false → memory.allocPage.1 ≠ 0 →
      Extends memory memory' pml4 → memory'.tableAt pml4 (i :: path) = some (level, frame) → ¬memory.InUse frame →
      memory'.InUse frame → Enters memory pml4 level table i path (some frame) memory'

theorem TableTree.enterTable {next : Option Nat} (tree : TableTree memory pml4) (hin : Indices (i :: path))
    (hr : memory.tableAt pml4 path = some (level + 1, table))
    (entered : memory.enterTable table i (level != 2) = (next, memory')) : Enters memory pml4 level table i path next memory' := by
  unfold PageMemory.enterTable at entered
  rcases upper_entry hr i with ⟨absent, lost, _⟩ | ⟨h, ⟨notTop, large⟩, _⟩ | ⟨h, plain, named, _⟩
  · simp only [absent, Bool.not_false, if_true] at entered
    rcases allocPage_cases memory with none_ | ⟨frame, frames, ht, managed, fresh, inUse⟩
    · rw [none_] at entered
      cases entered
      exact .full absent none_
    · rw [ht] at entered
      simp only [managed.pos, if_false] at entered
      cases entered
      obtain ⟨extend, named⟩ := @TableTree.addTable _ ((PageMemory.clearPage { memory with frames := frames } frame).write
        table i (tableEntry frame)) _ _ _ _ _ frame tree hin hr absent managed fresh inUse fun other j => by
          rw [write_words, clearPage_words]
      refine .made absent ?_ extend named fresh ((inUse frame).mpr (.inr rfl))
      rw [ht]
      exact managed.pos
  · have checked : (level != 2) = true := bne_iff_ne.mpr notTop
    simp only [h, large, checked, Bool.not_true, Bool.false_eq_true, if_false, Bool.and_self, if_true] at entered
    cases entered
    exact .large notTop h large
  · have passes : (level != 2 && huge (memory.words table i)) = false := by
      rcases plain with rfl | lt
      · rfl
      · rw [lt, Bool.and_false]
    simp only [h, passes, Bool.not_true, Bool.false_eq_true, if_false] at entered
    split at entered
    · cases entered
      have addr : entryAddr ((memory.write table i (memory.words table i ||| pageRW)).words table i) =
          entryAddr (memory.words table i) := by
        rw [write_words, if_pos ⟨rfl, rfl⟩]
        exact (writable_entry _).1
      rw [addr]
      exact .found named ⟨tree.widen hin hr named, rfl, way_writable memory table i⟩
    · cases entered
      exact .found named (.refl tree)

end

section

variable {memory memory' : PageMemory} {pml4 table : Nat} {path rest : List Nat}

theorem tableAt_way (hr : memory.tableAt pml4 path = some (rest.length, table)) :
    memory.tableAt pml4 (rest.reverse ++ path) =
      match memory.way table rest with
      | .clear last => some (0, last)
      | _ => none := by
  induction rest generalizing table path with
  | nil => exact hr
  | cons i rest ih =>
    have lostAbove : memory.tableAt pml4 (i :: path) = none → memory.tableAt pml4 ((i :: rest).reverse ++ path) = none := by
      intro lost
      rw [reverse_cons, append_assoc, singleton_append]
      generalize rest.reverse = front
      induction front with
      | nil => exact lost
      | cons j front ih => exact tableAt_of_lost ih j
    rcases upper_entry hr i with ⟨absent, lost, _⟩ | ⟨h, ⟨notTop, large⟩, lost, _⟩ | ⟨h, plain, named, _⟩
    · simp only [PageMemory.way, absent, Bool.not_false, if_true, lostAbove lost]
    · have checked : (rest.length != 2) = true := bne_iff_ne.mpr notTop
      simp only [PageMemory.way, h, large, checked, lostAbove lost]
      rfl
    · have passes : (rest.length != 2 && huge (memory.words table i)) = false := by
        rcases plain with top | lt
        · rw [top]
          rfl
        · rw [lt, Bool.and_false]
      simp only [PageMemory.way, h, passes]
      rw [reverse_cons, append_assoc, singleton_append]
      exact ih named

theorem way_cons {i next : Nat} (hr : memory.tableAt pml4 path = some (rest.length + 1, table))
    (named : memory.tableAt pml4 (i :: path) = some (rest.length, next)) :
    memory.way table (i :: rest) = memory.way next rest := by
  rcases upper_entry hr i with ⟨_, lost, _⟩ | ⟨_, _, lost, _⟩ | ⟨h, plain, there, _⟩
  · exact nomatch lost.symm.trans named
  · exact nomatch lost.symm.trans named
  · obtain ⟨_, eq⟩ := Prod.mk.injEq .. ▸ some.inj (there.symm.trans named)
    have passes : (rest.length != 2 && huge (memory.words table i)) = false := by
      rcases plain with top | lt
      · rw [top]
        rfl
      · rw [lt, Bool.and_false]
    simp only [PageMemory.way, h, passes, eq]
    rfl

theorem allocPage_congr (frames : memory'.frames = memory.frames) : memory'.allocPage.1 = memory.allocPage.1 :=
  congrArg (fun frames => (physicalAllocPages frames 1).1) frames

theorem inUse_congr (frames : memory'.frames = memory.frames) (addr : Nat) : memory'.InUse addr ↔ memory.InUse addr := by
  unfold PageMemory.InUse
  rw [frames]

theorem TableTree.enterTables {last : Option Nat} (tree : TableTree memory pml4) (inside : Indices (rest.reverse ++ path))
    (reached : memory.tableAt pml4 path = some (rest.length, table))
    (entered : memory.enterTables table (checks rest) = (last, memory')) :
    Extends memory memory' pml4 ∧ (∀ next, last = some next → memory'.tableAt pml4 (rest.reverse ++ path) = some (0, next)) ∧
      match memory.way table rest with
      | .clear next => last = some next ∧ Widens memory memory' pml4
      | .large _ => last = none ∧ Widens memory memory' pml4
      | .missing => if memory.allocPage.1 = 0 then last = none ∧ Widens memory memory' pml4
        else ∃ frame, ¬memory.InUse frame ∧ memory'.InUse frame := by
  induction rest generalizing memory table path with
  | nil =>
    cases entered
    exact ⟨.refl tree, fun next isNext => some.inj isNext ▸ reached, rfl, .refl tree⟩
  | cons i rest ih =>
    rw [reverse_cons, append_assoc, singleton_append] at inside ⊢
    have insideHere : Indices (i :: path) := fun j mem => inside j (mem_append_right _ mem)
    simp only [checks, PageMemory.enterTables] at entered
    cases step : memory.enterTable table i (rest.length != 2) with
    | mk next between =>
      rw [step] at entered
      cases tree.enterTable insideHere reached step with
      | @found next _ named widens =>
        obtain ⟨extend, found, outcome⟩ := ih widens.tree inside (widens.kept _ _ insideHere named) entered
        rw [way_cons reached named, ← widens.ways]
        refine ⟨widens.toExtends.trans extend, found, ?_⟩
        rw [allocPage_congr widens.frames] at outcome
        revert outcome
        cases between.way next rest with
        | clear _ => exact fun outcome => ⟨outcome.1, widens.trans outcome.2⟩
        | large _ => exact fun outcome => ⟨outcome.1, widens.trans outcome.2⟩
        | missing =>
          dsimp only
          split
          · exact fun outcome => ⟨outcome.1, widens.trans outcome.2⟩
          · rintro ⟨frame, fresh, used⟩
            exact ⟨frame, fun old => fresh ((inUse_congr widens.frames frame).mpr old), used⟩
      | large notTop here large =>
        cases entered
        have checked : (rest.length != 2) = true := bne_iff_ne.mpr notTop
        simp only [PageMemory.way, here, large, checked]
        exact ⟨.refl tree, fun _ isNext => (by cases isNext), trivial, .refl tree⟩
      | full absent none_ =>
        cases entered
        simp only [PageMemory.way, absent, none_]
        exact ⟨.refl tree, fun _ isNext => (by cases isNext), trivial, .refl tree⟩
      | @made frame _ absent some_ extend named fresh used =>
        obtain ⟨extend', found, _⟩ := ih extend.tree inside named entered
        simp only [PageMemory.way, absent, some_]
        exact ⟨extend.trans extend', found, frame, fresh, (extend'.inUse frame).mpr (.inl used)⟩

end

/-- The page that a last-level entry maps. -/
def leafPage (entry : Nat) : Option Nat := if present entry then some entry else none

/-- The way from the top-level table to the last table for an address. -/
def PageMemory.wayTo (memory : PageMemory) (pml4 virtAddr : Nat) : Way :=
  memory.way pml4 [tableIndex 3 virtAddr, tableIndex 2 virtAddr, tableIndex 1 virtAddr]

/-- One entry is written on one path; missing tables may be made for it. -/
structure Maps (memory memory' : PageMemory) (pml4 : Nat) (path : List Nat) (entry : Nat) : Prop extends
    Grows memory memory' pml4 where
  pages : ∀ path', Indices path' →
    memory'.pageAt pml4 path' = if path' = path then leafPage entry else memory.pageAt pml4 path'
  table : ∃ last, memory'.tableAt pml4 path.tail = some (0, last)

section

variable {memory memory' : PageMemory} {pml4 table i : Nat} {path rest : List Nat}

theorem tableAt_wayTo (memory : PageMemory) (pml4 virtAddr : Nat) : memory.tableAt pml4 (pathOf virtAddr).tail =
    match memory.wayTo pml4 virtAddr with
    | .clear last => some (0, last)
    | _ => none :=
  @tableAt_way memory pml4 pml4 [] [tableIndex 3 virtAddr, tableIndex 2 virtAddr, tableIndex 1 virtAddr] rfl

theorem way_congr (hin : Indices (rest.reverse ++ path)) (hr : memory.tableAt pml4 path = some (rest.length, table))
    (eq : ∀ path node j, Indices (j :: path) → memory.tableAt pml4 path = some node → node.1 ≠ 0 →
      memory'.words node.2 j = memory.words node.2 j) : memory'.way table rest = memory.way table rest := by
  induction rest generalizing table path with
  | nil => rfl
  | cons i rest ih =>
    rw [reverse_cons, append_assoc, singleton_append] at hin
    have insideHere : Indices (i :: path) := fun j mem => hin j (mem_append_right _ mem)
    have kept : memory'.words table i = memory.words table i :=
      eq path (rest.length + 1, table) i insideHere hr (Nat.succ_ne_zero _)
    simp only [PageMemory.way, kept]
    split
    case isTrue => rfl
    case isFalse h =>
      split
      case isTrue => rfl
      case isFalse passes =>
        rcases upper_entry hr i with ⟨absent, _⟩ | ⟨_, ⟨notTop, large⟩, _⟩ | ⟨_, _, named, _⟩
        · exact absurd (by rw [absent]; rfl) h
        · have checked : (rest.length != 2) = true := bne_iff_ne.mpr notTop
          exact absurd (by rw [large, checked]; rfl) passes
        · exact ih hin named

section

variable (tree : TableTree memory pml4) (hin : Indices (i :: path)) (hr : memory.tableAt pml4 path = some (0, table))
  (entry : Nat)
include tree hin hr entry

theorem TableTree.words_writeLast {path' : List Nat} {node : Nat × Nat} {j : Nat} (hin' : Indices (j :: path'))
    (there : memory.tableAt pml4 path' = some node) (upper : node.1 ≠ 0) :
    (memory.write table i entry).words node.2 j = memory.words node.2 j := by
  rw [write_words, if_neg]
  rintro ⟨sameTable, _⟩
  obtain rfl := tree.once path path' 0 node.1 table hin.tail hin'.tail hr (sameTable ▸ there)
  obtain rfl := some.inj (hr.symm.trans there)
  exact upper rfl

theorem TableTree.tableAt_writeLast {path' : List Nat} (hin' : Indices path') :
    (memory.write table i entry).tableAt pml4 path' = memory.tableAt pml4 path' := by
  apply tableAt_congr _ hin'
  intro other node j within there
  obtain ⟨level, node⟩ := node
  cases level with
  | zero => rfl
  | succ level =>
    unfold PageMemory.levelEntry
    rw [tree.words_writeLast hin hr entry within there (Nat.succ_ne_zero level)]

theorem TableTree.writeLast : Maps memory (memory.write table i entry) pml4 (i :: path) entry ∧
      (memory.write table i entry).frames = memory.frames ∧
      ∀ virtAddr, (memory.write table i entry).wayTo pml4 virtAddr = memory.wayTo pml4 virtAddr := by
  have eq : ∀ path' node j, Indices (j :: path') → memory.tableAt pml4 path' = some node → node.1 ≠ 0 →
      (memory.write table i entry).words node.2 j = memory.words node.2 j :=
    fun _ _ _ hin' there upper => tree.words_writeLast hin hr entry hin' there upper
  have walks : ∀ path', Indices path' → (memory.write table i entry).tableAt pml4 path' = memory.tableAt pml4 path' :=
    fun _ hin' => tree.tableAt_writeLast hin hr entry hin'
  refine ⟨⟨.of_walks tree walks fun _ => .rfl, fun path' hin' => ?_, table, (walks path hin.tail).trans hr⟩,
    rfl, fun virtAddr => ?_⟩
  · cases path' with
    | nil => rw [if_neg (cons_ne_nil i path).symm]; rfl
    | cons j path' =>
      by_cases h : j :: path' = i :: path
      · obtain ⟨rfl, rfl⟩ := cons.inj h
        rw [if_pos rfl, pageAt_cons ((walks path' hin.tail).trans hr)]
        simp only [PageMemory.levelEntry, mapsPage, write_words, and_self, if_true]
        rfl
      · rw [if_neg h]
        apply pageAt_congr (walks path' hin'.tail)
        intro node there
        rw [write_words, if_neg]
        rintro ⟨sameTable, rfl⟩
        obtain rfl := tree.once path path' 0 node.1 table hin.tail hin'.tail hr (sameTable ▸ there)
        exact h rfl
  · exact @way_congr memory _ pml4 pml4 [] _ (indices_pathOf virtAddr).tail rfl eq

end

theorem Maps.after {mid : PageMemory} {entry : Nat} (extend : Extends memory mid pml4)
    (maps : Maps mid memory' pml4 path entry) : Maps memory memory' pml4 path entry where
  toGrows := extend.toGrows.trans maps.toGrows
  pages path' hin := by rw [maps.pages path' hin, extend.pages path' hin]
  table := maps.table

theorem TableTree.mapPage {physAddr virtAddr flags : Nat} {ok : Bool} (tree : TableTree memory pml4)
    (mapped : memory.mapPage pml4 physAddr virtAddr flags = (ok, memory')) :
    (if ok then Maps memory memory' pml4 (pathOf virtAddr) (physAddr ||| flags) else Extends memory memory' pml4) ∧
      match memory.wayTo pml4 virtAddr with
      | .clear _ => ok = true ∧ memory'.frames = memory.frames ∧
          ∀ other, memory'.wayTo pml4 other = memory.wayTo pml4 other
      | .large _ => ok = false ∧ memory'.frames = memory.frames
      | .missing => if memory.allocPage.1 = 0 then ok = false ∧ memory'.frames = memory.frames
        else ∃ frame, ¬memory.InUse frame ∧ memory'.InUse frame := by
  have levels : [(tableIndex 3 virtAddr, false), (tableIndex 2 virtAddr, true), (tableIndex 1 virtAddr, true)] =
      checks [tableIndex 3 virtAddr, tableIndex 2 virtAddr, tableIndex 1 virtAddr] := rfl
  unfold PageMemory.mapPage at mapped
  rw [levels] at mapped
  cases entered : memory.enterTables pml4 (checks [tableIndex 3 virtAddr, tableIndex 2 virtAddr, tableIndex 1 virtAddr]) with
  | mk last between =>
    rw [entered] at mapped
    obtain ⟨extend, found, outcome⟩ := @TableTree.enterTables memory between pml4 pml4 []
      [tableIndex 3 virtAddr, tableIndex 2 virtAddr, tableIndex 1 virtAddr] last tree (indices_pathOf virtAddr).tail rfl entered
    change match memory.wayTo pml4 virtAddr with
      | .clear next => last = some next ∧ Widens memory between pml4
      | .large _ => last = none ∧ Widens memory between pml4
      | .missing => if memory.allocPage.1 = 0 then last = none ∧ Widens memory between pml4
        else ∃ frame, ¬memory.InUse frame ∧ between.InUse frame at outcome
    cases last with
    | none =>
      cases mapped
      refine ⟨extend, ?_⟩
      revert outcome
      cases memory.wayTo pml4 virtAddr with
      | clear _ => exact fun outcome => nomatch outcome.1
      | large _ => exact fun outcome => ⟨rfl, outcome.2.frames⟩
      | missing =>
        change (if _ then _ else _) → if _ then _ else _
        split
        · exact fun outcome => ⟨rfl, outcome.2.frames⟩
        · exact id
    | some pt =>
      cases mapped
      obtain ⟨maps, frames, ways⟩ := extend.tree.writeLast (indices_pathOf virtAddr) (found pt rfl) (physAddr ||| flags)
      refine ⟨maps.after extend, ?_⟩
      revert outcome
      cases memory.wayTo pml4 virtAddr with
      | clear _ =>
        intro outcome
        exact ⟨rfl, frames.trans outcome.2.frames, fun other => (ways other).trans (outcome.2.ways _ _)⟩
      | large _ => exact fun outcome => nomatch outcome.1
      | missing =>
        change (if _ then _ else _) → if _ then _ else _
        split
        · exact fun outcome => nomatch outcome.1
        · rintro ⟨frame, fresh, used⟩
          exact ⟨frame, fresh, (inUse_congr frames frame).mpr used⟩

end

end RosKernel.Memory
