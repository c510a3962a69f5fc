import RosKernel.Memory.PageCalls

/-! The four levels of one page table, with all of its entries and with large pages.

A table is named by the path of indices that leads to it, last index first, and an entry by its
index and the path of its table. What addresses translate to is read off the entries that map pages.
-/

set_option autoImplicit false

namespace RosKernel.Memory

open Library

/-- The table that an entry of a level names. An entry of the top level is never a page. -/
def below : Nat × Nat → Option (Nat × Nat)
  | (0, _) => none
  | (level + 1, entry) => if present entry && (level == 2 || !huge entry) then some (level, entryAddr entry) else none

def mapsPage : Nat × Nat → Bool
  | (0, entry) => present entry
  | (level + 1, entry) => present entry && (level != 2 && huge entry)

def Indices (path : List Nat) : Prop := ∀ i ∈ path, i < tableSize

namespace PageMemory

section

variable (memory : PageMemory)
include memory

def levelEntry (node : Nat × Nat) (i : Nat) : Nat × Nat := (node.1, memory.words node.2 i)

def tableAt (pml4 : Nat) (path : List Nat) : Option (Nat × Nat) :=
  Library.walk below memory.levelEntry (3, pml4) path

def entryAt (pml4 : Nat) : List Nat → Option (Nat × Nat)
  | [] => none
  | i :: path => (memory.tableAt pml4 path).map fun node => memory.levelEntry node i

/-- The entry at the end of a path, if it maps a page. -/
def pageAt (pml4 : Nat) (path : List Nat) : Option Nat :=
  ((memory.entryAt pml4 path).filter mapsPage).map Prod.snd

def frameAt (pml4 : Nat) (path : List Nat) : Option Nat := (memory.pageAt pml4 path).map entryAddr

def IsTable (pml4 addr : Nat) : Prop :=
  ∃ path level, Indices path ∧ memory.tableAt pml4 path = some (level, addr)

end

end PageMemory

/-- What an address translates to, from the pages that paths lead to. -/
def resolve (frames : List Nat → Option Nat) (virtAddr : Nat) : Nat :=
  match frames (pathOf virtAddr).tail.tail with
  | some frame => add64 frame (virtAddr &&& (2 ^ 30 - 1))
  | none =>
    match frames (pathOf virtAddr).tail with
    | some frame => add64 frame (virtAddr &&& (2 ^ 21 - 1))
    | none =>
      match frames (pathOf virtAddr) with
      | some frame => add64 frame (virtAddr &&& (pageSize - 1))
      | none => 0

section

variable {memory memory' : PageMemory} {pml4 i level addr : Nat} {path : List Nat} {node : Nat × Nat}

theorem indices_nil : Indices [] := fun _ mem => nomatch mem

theorem Indices.tail (hin : Indices (i :: path)) : Indices path := fun j mem => hin j (.tail _ mem)

theorem Indices.head (hin : Indices (i :: path)) : i < tableSize := hin i (.head _)

theorem indices_pathOf (virtAddr : Nat) : Indices (pathOf virtAddr) := by
  intro i mem
  simp only [pathOf, List.mem_cons, List.not_mem_nil, or_false] at mem
  rcases mem with rfl | rfl | rfl | rfl <;> exact tableIndex_lt _ _

theorem tableAt_nil (memory : PageMemory) (pml4 : Nat) : memory.tableAt pml4 [] = some (3, pml4) := rfl

theorem tableAt_cons (memory : PageMemory) (pml4 i : Nat) (path : List Nat) : memory.tableAt pml4 (i :: path) =
    (memory.tableAt pml4 path).bind fun node => below (memory.levelEntry node i) := rfl

theorem below_eq_some {entry : Nat} (named : below (level, entry) = some node) :
    level = node.1 + 1 ∧ node.2 = entryAddr entry ∧ present entry = true ∧ (node.1 = 2 ∨ huge entry = false) := by
  cases level with
  | zero => exact nomatch named
  | succ level =>
    simp only [below] at named
    split at named
    case isTrue both =>
      cases named
      simp only [Bool.and_eq_true, Bool.or_eq_true, beq_iff_eq, Bool.not_eq_true'] at both
      exact ⟨rfl, rfl, both.1, both.2⟩
    case isFalse => exact nomatch named

theorem tableAt_level (hr : memory.tableAt pml4 path = some node) : node.1 + path.length = 3 := by
  induction path generalizing node with
  | nil =>
    cases hr
    rfl
  | cons i path ih =>
    obtain ⟨parent, above, named⟩ := Option.bind_eq_some_iff.mp hr
    have height := ih above
    obtain ⟨lower, _⟩ := below_eq_some named
    rw [List.length_cons]
    omega

theorem mapsPage_absent {entry : Nat} (absent : present entry = false) (level : Nat) : mapsPage (level, entry) = false := by
  cases level with
  | zero => exact absent
  | succ level =>
    simp only [mapsPage, absent]
    rfl

theorem below_mapsPage (entry : Nat × Nat) : below entry = none ∨ mapsPage entry = false := by
  obtain ⟨level, entry⟩ := entry
  cases level with
  | zero => exact .inl rfl
  | succ level =>
    simp only [below, mapsPage]
    cases present entry <;> cases huge entry <;> by_cases top : level = 2 <;> simp [top]

theorem pageAt_cons (hr : memory.tableAt pml4 path = some node) (i : Nat) : memory.pageAt pml4 (i :: path) =
    if mapsPage (memory.levelEntry node i) then some (memory.words node.2 i) else none := by
  simp only [PageMemory.pageAt, PageMemory.entryAt, hr, Option.map_some, Option.filter_some]
  split <;> rfl

theorem pageAt_lost (lost : memory.tableAt pml4 path = none) (i : Nat) : memory.pageAt pml4 (i :: path) = none := by
  simp only [PageMemory.pageAt, PageMemory.entryAt, lost]
  rfl

theorem pageAt_table (hr : memory.tableAt pml4 (i :: path) = some node) : memory.pageAt pml4 (i :: path) = none := by
  obtain ⟨parent, above, named⟩ := Option.bind_eq_some_iff.mp hr
  rw [pageAt_cons above]
  rcases below_mapsPage (memory.levelEntry parent i) with lost | plain
  · exact nomatch named.symm.trans lost
  · rw [plain]
    rfl

theorem tableAt_of_lost (lost : memory.tableAt pml4 path = none) (i : Nat) : memory.tableAt pml4 (i :: path) = none := by
  rw [tableAt_cons, lost, Option.bind_none]

end

section

variable {memory : PageMemory} {pml4 i level addr : Nat} {path : List Nat} {node : Nat × Nat}

theorem frameAt_cons (hr : memory.tableAt pml4 path = some node) (i : Nat) : memory.frameAt pml4 (i :: path) =
    if mapsPage (memory.levelEntry node i) then some (entryAddr (memory.words node.2 i)) else none := by
  unfold PageMemory.frameAt
  rw [pageAt_cons hr, apply_ite (Option.map entryAddr)]
  rfl

theorem frameAt_lost (lost : memory.tableAt pml4 path = none) (i : Nat) : memory.frameAt pml4 (i :: path) = none := by
  unfold PageMemory.frameAt
  rw [pageAt_lost lost]
  rfl

theorem upper_entry (hr : memory.tableAt pml4 path = some (level + 1, addr)) (i : Nat) :
    (present (memory.words addr i) = false ∧ memory.tableAt pml4 (i :: path) = none ∧
        memory.frameAt pml4 (i :: path) = none) ∨
      (present (memory.words addr i) = true ∧ (level ≠ 2 ∧ huge (memory.words addr i) = true) ∧
        memory.tableAt pml4 (i :: path) = none ∧ memory.frameAt pml4 (i :: path) = some (entryAddr (memory.words addr i))) ∨
      present (memory.words addr i) = true ∧ (level = 2 ∨ huge (memory.words addr i) = false) ∧
        memory.tableAt pml4 (i :: path) = some (level, entryAddr (memory.words addr i)) ∧
        memory.frameAt pml4 (i :: path) = none := by
  rw [tableAt_cons, hr, Option.bind_some, frameAt_cons hr]
  simp only [PageMemory.levelEntry, below, mapsPage]
  by_cases h : present (memory.words addr i) = true
  · grind
  · simp [h]

theorem last_entry (hr : memory.tableAt pml4 path = some (0, addr)) (i : Nat) :
    (present (memory.words addr i) = false ∧ memory.frameAt pml4 (i :: path) = none) ∨
      present (memory.words addr i) = true ∧ memory.frameAt pml4 (i :: path) = some (entryAddr (memory.words addr i)) := by
  rw [frameAt_cons hr]
  by_cases h : present (memory.words addr i) = true
  · exact .inr ⟨h, if_pos h⟩
  · exact .inl ⟨Bool.eq_false_iff.mpr h, if_neg h⟩

theorem getPhysicalAddress_eq (memory : PageMemory) (pml4 virtAddr : Nat) :
    memory.getPhysicalAddress pml4 virtAddr = resolve (memory.frameAt pml4) virtAddr := by
  unfold PageMemory.getPhysicalAddress resolve
  simp only [pathOf, List.tail_cons]
  -- level by level, each time with what the walk finds if it stops there
  rcases upper_entry (tableAt_nil memory pml4) (tableIndex 3 virtAddr) with
    ⟨absent, lost, _⟩ | ⟨_, ⟨notTop, _⟩, _⟩ | ⟨here3, _, reached3, _⟩
  · rw [absent, frameAt_lost lost, frameAt_lost (tableAt_of_lost lost _),
      frameAt_lost (tableAt_of_lost (tableAt_of_lost lost _) _)]
    rfl
  · exact absurd rfl notTop
  rw [here3]
  rcases upper_entry reached3 (tableIndex 2 virtAddr) with
    ⟨absent, lost, nothing⟩ | ⟨h, ⟨_, large⟩, lost, page⟩ | ⟨here2, plain2, reached2, nothing2⟩
  · rw [absent, nothing, frameAt_lost lost, frameAt_lost (tableAt_of_lost lost _)]
    rfl
  · rw [h, large, page]
    rfl
  rw [here2, plain2.resolve_left (by decide), nothing2]
  rcases upper_entry reached2 (tableIndex 1 virtAddr) with
    ⟨absent, lost, nothing⟩ | ⟨h, ⟨_, large⟩, lost, page⟩ | ⟨here1, plain1, reached1, nothing1⟩
  · rw [absent, nothing, frameAt_lost lost]
    rfl
  · rw [h, large, page]
    rfl
  rw [here1, plain1.resolve_left (by decide), nothing1]
  rcases last_entry reached1 (tableIndex 0 virtAddr) with ⟨absent, nothing⟩ | ⟨h, page⟩
  · rw [absent, nothing]
    rfl
  · rw [h, page]
    rfl

end

/-- No table is reached along two paths, and none that the allocator manages is free. -/
structure TableTree (memory : PageMemory) (pml4 : Nat) : Prop where
  taken : ∀ addr, memory.IsTable pml4 addr → Managed addr → memory.InUse addr
  once : ∀ path path' level level' addr, Indices path → Indices path' → memory.tableAt pml4 path = some (level, addr) →
    memory.tableAt pml4 path' = some (level', addr) → path' = path

section

variable {memory memory' : PageMemory} {pml4 i : Nat} {path : List Nat} {node : Nat × Nat}

theorem closed_indices (root : Nat × Nat) : Closed fun top path => top = root ∧ Indices path :=
  fun _ _ _ hin => ⟨hin.1, hin.2.tail⟩

theorem isTable_of_reached (hin : Indices path) (hr : memory.tableAt pml4 path = some node) :
    memory.IsTable pml4 node.2 := ⟨path, node.1, hin, hr⟩

theorem tableAt_congr (eq : ∀ path node j, Indices (j :: path) → memory.tableAt pml4 path = some node →
      below (memory'.levelEntry node j) = below (memory.levelEntry node j)) (hin : Indices path) :
    memory'.tableAt pml4 path = memory.tableAt pml4 path := by
  apply walk_congr (closed_indices (3, pml4))
  · rintro _ path node j ⟨rfl, within⟩ hr
    exact eq path node j within hr
  · exact ⟨rfl, hin⟩

theorem TableTree.tableAt_set (tree : TableTree memory pml4) (hin : Indices path)
    (hr : memory.tableAt pml4 path = some node)
    (eq : ∀ other j, memory.IsTable pml4 other → ¬(other = node.2 ∧ j = i) → memory'.words other j = memory.words other j)
    (barren : ∀ child, below (memory.levelEntry node i) = some child → ∀ j, j < tableSize →
      below (memory.levelEntry child j) = none)
    (barren' : ∀ child, below (memory'.levelEntry node i) = some child → ∀ j, j < tableSize →
      below (memory'.levelEntry child j) = none) {path' : List Nat} (hin' : Indices path') :
    memory'.tableAt pml4 path' =
      if path' = i :: path then below (memory'.levelEntry node i) else memory.tableAt pml4 path' := by
  have changed := @walk_set _ _ _ below memory.levelEntry memory'.levelEntry _ _ _ (closed_indices (3, pml4)) (3, pml4) node i
    path hr ?_ ?_ ?_ ?_ (3, pml4) path' ⟨rfl, hin'⟩
  · simp only [true_and] at changed
    exact changed
  · rintro _ other ⟨rfl, within⟩ again
    exact ⟨rfl, tree.once path other node.1 node.1 node.2 hin within hr again⟩
  · rintro _ other node' j ⟨rfl, within⟩ there elsewhere
    have kept : memory'.words node'.2 j = memory.words node'.2 j := by
      apply eq node'.2 j (isTable_of_reached within.tail there)
      rintro ⟨sameTable, sameIndex⟩
      have samePath := tree.once path other node.1 node'.1 node.2 hin within.tail hr (sameTable ▸ there)
      have again : memory.tableAt pml4 path = some node' := samePath ▸ there
      exact elsewhere ⟨Option.some.inj (again.symm.trans hr), sameIndex⟩
    unfold PageMemory.levelEntry
    rw [kept]
  · exact fun child named j within => barren child named j within.2.head
  · exact fun child named j within => barren' child named j within.2.head

theorem pageAt_congr (eq : memory'.tableAt pml4 path = memory.tableAt pml4 path)
    (entries : ∀ node, memory.tableAt pml4 path = some node → memory'.words node.2 i = memory.words node.2 i) :
    memory'.pageAt pml4 (i :: path) = memory.pageAt pml4 (i :: path) := by
  cases hr : memory.tableAt pml4 path with
  | none => rw [pageAt_lost hr, pageAt_lost (eq.trans hr)]
  | some node =>
    have kept := entries node hr
    rw [pageAt_cons hr, pageAt_cons (eq.trans hr)]
    unfold PageMemory.levelEntry
    rw [kept]

theorem TableTree.congr (tree : TableTree memory pml4) (walks : ∀ path, Indices path →
      memory'.tableAt pml4 path = memory.tableAt pml4 path) (inUse : ∀ addr, memory'.InUse addr ↔ memory.InUse addr) :
    TableTree memory' pml4 ∧ ∀ addr, memory'.IsTable pml4 addr ↔ memory.IsTable pml4 addr := by
  have tables : ∀ addr, memory'.IsTable pml4 addr ↔ memory.IsTable pml4 addr := by
    intro addr
    refine exists_congr fun path => exists_congr fun level => and_congr_right fun hin => ?_
    rw [walks path hin]
  refine ⟨⟨fun addr isTable managed => ?_, ?_⟩, tables⟩
  · exact (inUse addr).mpr (tree.taken addr ((tables addr).mp isTable) managed)
  · intro path path' level level' addr hin hin' hr hr'
    rw [walks path hin] at hr
    rw [walks path' hin'] at hr'
    exact tree.once path path' level level' addr hin hin' hr hr'

/-- Tables are made in frames that were free, and no table goes away. -/
structure Grows (memory memory' : PageMemory) (pml4 : Nat) : Prop where
  tree : TableTree memory' pml4
  kept : ∀ path node, Indices path → memory.tableAt pml4 path = some node → memory'.tableAt pml4 path = some node
  inUse : ∀ addr, memory'.InUse addr ↔ memory.InUse addr ∨ (memory'.IsTable pml4 addr ∧ ¬memory.IsTable pml4 addr)

theorem Grows.refl (tree : TableTree memory pml4) : Grows memory memory pml4 where
  tree := tree
  kept _ _ _ hr := hr
  inUse _ := ⟨.inl, fun used => used.resolve_right fun both => both.2 both.1⟩

theorem Grows.isTable (grows : Grows memory memory' pml4) {addr : Nat} (isTable : memory.IsTable pml4 addr) :
    memory'.IsTable pml4 addr := by
  obtain ⟨path, level, hin, hr⟩ := isTable
  exact ⟨path, level, hin, grows.kept path _ hin hr⟩

theorem Grows.trans {memory'' : PageMemory} (first : Grows memory memory' pml4) (snd : Grows memory' memory'' pml4) :
    Grows memory memory'' pml4 where
  tree := snd.tree
  kept path node hin hr := snd.kept path node hin (first.kept path node hin hr)
  inUse addr := by
    rw [snd.inUse, first.inUse]
    constructor
    · rintro ((old | ⟨isNew, fresh⟩) | ⟨isNew, fresh⟩)
      · exact .inl old
      · exact .inr ⟨snd.isTable isNew, fresh⟩
      · exact .inr ⟨isNew, fun old => fresh (first.isTable old)⟩
    · rintro (old | ⟨isNew, fresh⟩)
      · exact .inl (.inl old)
      · by_cases mid : memory'.IsTable pml4 addr
        · exact .inl (.inr ⟨mid, fresh⟩)
        · exact .inr ⟨isNew, mid⟩

theorem Grows.of_walks (tree : TableTree memory pml4) (walks : ∀ path, Indices path →
      memory'.tableAt pml4 path = memory.tableAt pml4 path) (inUse : ∀ addr, memory'.InUse addr ↔ memory.InUse addr) :
    Grows memory memory' pml4 := by
  obtain ⟨tree', tables⟩ := tree.congr walks inUse
  refine ⟨tree', fun path node hin hr => (walks path hin).trans hr, fun addr => ?_⟩
  rw [inUse, tables]
  exact ⟨.inl, fun used => used.resolve_right fun both => both.2 both.1⟩

/-- Nothing happens to what is mapped. -/
structure Extends (memory memory' : PageMemory) (pml4 : Nat) : Prop extends Grows memory memory' pml4 where
  pages : ∀ path, Indices path → memory'.pageAt pml4 path = memory.pageAt pml4 path

theorem Extends.refl (tree : TableTree memory pml4) : Extends memory memory pml4 := ⟨.refl tree, fun _ _ => rfl⟩

theorem Extends.trans {memory'' : PageMemory} (first : Extends memory memory' pml4) (snd : Extends memory' memory'' pml4) :
    Extends memory memory'' pml4 where
  toGrows := first.toGrows.trans snd.toGrows
  pages path hin := (snd.pages path hin).trans (first.pages path hin)

end

end RosKernel.Memory
