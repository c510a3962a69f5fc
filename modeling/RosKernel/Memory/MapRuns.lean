import RosKernel.Memory.MapTables

/-! The loop of `MapPages`, when it succeeds and when it fails.

The abstract effect of the loop is a sequence of writes to the map from paths to pages.
-/

set_option autoImplicit false

namespace RosKernel.Memory

open Library

def pageOf (start i : Nat) : Nat := add64 start (mul64 i pageSize)

/-- The pages after the loop has written its entries from page `i` on. -/
def writePages (physAddr virtAddr flags : Nat) : Nat → Nat → (List Nat → Option Nat) → List Nat → Option Nat
  | _, 0, pages => pages
  | i, count + 1, pages => writePages physAddr virtAddr flags (i + 1) count fun path =>
      if path = pathOf (pageOf virtAddr i) then leafPage (pageOf physAddr i ||| flags) else pages path

section

variable {physAddr virtAddr flags : Nat} {pages pages' : List Nat → Option Nat} {path : List Nat}

theorem writePages_congr (i count : Nat) (eq : pages path = pages' path) :
    writePages physAddr virtAddr flags i count pages path = writePages physAddr virtAddr flags i count pages' path := by
  induction count generalizing i pages pages' with
  | zero => exact eq
  | succ count ih =>
    exact ih (i + 1) (by rw [eq])

theorem writePages_other {i count : Nat} (other : ∀ j, i ≤ j → j < i + count → path ≠ pathOf (pageOf virtAddr j)) :
    writePages physAddr virtAddr flags i count pages path = pages path := by
  induction count generalizing i pages with
  | zero => rfl
  | succ count ih =>
    have later : ∀ j, i + 1 ≤ j → j < i + 1 + count → path ≠ pathOf (pageOf virtAddr j) :=
      fun j low high => other j (by omega) (by omega)
    have h := other i (Nat.le_refl i) (by omega)
    exact (ih later).trans (if_neg h)

theorem writePages_last {i j count : Nat} (low : i ≤ j) (high : j < i + count)
    (last : ∀ k, j < k → k < i + count → pathOf (pageOf virtAddr j) ≠ pathOf (pageOf virtAddr k)) :
    writePages physAddr virtAddr flags i count pages (pathOf (pageOf virtAddr j)) =
      leafPage (pageOf physAddr j ||| flags) := by
  induction count generalizing i pages with
  | zero => omega
  | succ count ih =>
    by_cases first : i = j
    · subst first
      have rest : ∀ k, i + 1 ≤ k → k < i + 1 + count → pathOf (pageOf virtAddr i) ≠ pathOf (pageOf virtAddr k) :=
        fun k above below => last k (by omega) (by omega)
      exact (writePages_other rest).trans (if_pos rfl)
    · exact ih (by omega) (by omega) fun k above below => last k above (by omega)

end

section

variable {memory memory' : PageMemory} {pml4 physAddr virtAddr flags i count : Nat}

theorem TableTree.mapPagesFrom (tree : TableTree memory pml4)
    (mapped : memory.mapPagesFrom pml4 physAddr virtAddr flags i count = (true, memory')) :
    Grows memory memory' pml4 ∧
      (∀ path, Indices path → memory'.pageAt pml4 path =
        writePages physAddr virtAddr flags i count (memory.pageAt pml4) path) ∧
      ∀ j, i ≤ j → j < i + count → ∃ last, memory'.tableAt pml4 (pathOf (pageOf virtAddr j)).tail = some (0, last) := by
  induction count generalizing memory i with
  | zero =>
    cases mapped
    exact ⟨.refl tree, fun _ _ => rfl, fun j low high => by omega⟩
  | succ count ih =>
    unfold PageMemory.mapPagesFrom at mapped
    cases step : memory.mapPage pml4 (add64 physAddr (mul64 i pageSize)) (add64 virtAddr (mul64 i pageSize)) flags with
    | mk ok mid =>
      rw [step] at mapped
      cases ok with
      | false => exact nomatch mapped
      | true =>
        have maps : Maps memory mid pml4 (pathOf (pageOf virtAddr i)) (pageOf physAddr i ||| flags) :=
          (tree.mapPage step).1
        obtain ⟨grows, pages, ready⟩ := ih maps.tree mapped
        refine ⟨maps.toGrows.trans grows, fun path hin => ?_, fun j low high => ?_⟩
        · rw [pages path hin]
          exact writePages_congr (i + 1) count (maps.pages path hin)
        · by_cases first : j = i
          · obtain ⟨last, hr⟩ := maps.table
            exact ⟨last, grows.kept _ _ (first ▸ (indices_pathOf _).tail) (first ▸ hr)⟩
          · exact ready j (by omega) (by omega)

/-- An address that the processor accepts: one of the two halves that 47 bits give. -/
def Canonical (virtAddr : Nat) : Prop := virtAddr < 2 ^ 47 ∨ 2 ^ 64 - 2 ^ 47 ≤ virtAddr ∧ virtAddr < 2 ^ 64

/-- The pages lie in one half. -/
def InHalf (virtAddr count : Nat) : Prop :=
  virtAddr + count * pageSize ≤ 2 ^ 47 ∨ 2 ^ 64 - 2 ^ 47 ≤ virtAddr ∧ virtAddr + count * pageSize ≤ 2 ^ 64

theorem pathOf_congr {one other : Nat} (eq : one / 4096 = other / 4096) : pathOf one = pathOf other := by
  have index : ∀ level, tableIndex level one = tableIndex level other := by
    intro level
    rw [tableIndex_eq, tableIndex_eq, Nat.pow_add, ← Nat.div_div_eq_div_mul, ← Nat.div_div_eq_div_mul,
      show 2 ^ 12 = 4096 by decide, eq]
  simp only [pathOf, index]

theorem page_of_pathOf {one other : Nat} (oneCanonical : Canonical one) (otherCanonical : Canonical other)
    (eq : pathOf one = pathOf other) : one / 4096 = other / 4096 := by
  simp only [pathOf, tableIndex_eq, List.cons.injEq, and_true] at eq
  unfold Canonical at oneCanonical otherCanonical
  omega

theorem pageOf_eq {start : Nat} (lt : start + i * pageSize < 2 ^ 64) : pageOf start i = start + i * pageSize := by
  unfold pageOf
  rw [mul64_eq (by omega), add64_eq lt]

theorem resolve_page {frames : List Nat → Option Nat} (giga : frames (pathOf virtAddr).tail.tail = none)
    (mega : frames (pathOf virtAddr).tail = none) : resolve frames virtAddr =
      match frames (pathOf virtAddr) with
      | some frame => add64 frame (virtAddr &&& (pageSize - 1))
      | none => 0 := by
  unfold resolve
  cases frames (pathOf virtAddr) with
  | none => simp only [giga, mega]
  | some frame => simp only [giga, mega]

theorem resolve_congr {frames frames' : List Nat → Option Nat} (eq : ∀ path, Indices path → frames' path = frames path)
    (virtAddr : Nat) : resolve frames' virtAddr = resolve frames virtAddr := by
  have hin := indices_pathOf virtAddr
  unfold resolve
  rw [eq _ hin, eq (pathOf virtAddr).tail hin.tail, eq (pathOf virtAddr).tail.tail hin.tail.tail]

theorem frameAt_table {memory : PageMemory} {path : List Nat} {node : Nat × Nat} (nonempty : path ≠ [])
    (hr : memory.tableAt pml4 path = some node) : memory.frameAt pml4 path = none := by
  obtain ⟨i, path, rfl⟩ := List.exists_cons_of_ne_nil nonempty
  unfold PageMemory.frameAt
  rw [pageAt_table hr]
  rfl

theorem tableAt_tail {memory : PageMemory} {path : List Nat} {node : Nat × Nat}
    (hr : memory.tableAt pml4 (i :: path) = some node) : ∃ parent, memory.tableAt pml4 path = some parent := by
  obtain ⟨parent, above, _⟩ := Option.bind_eq_some_iff.mp hr
  exact ⟨parent, above⟩

theorem frameAt_small {memory : PageMemory} {path : List Nat} {frame : Nat} (mapped : memory.frameAt pml4 path = some frame) :
    frame < 2 ^ 52 := by
  obtain ⟨entry, _, rfl⟩ := Option.map_eq_some_iff.mp mapped
  exact (entryAddr_mappable entry).small

theorem getPhysicalAddress_last {memory : PageMemory} {last : Nat}
    (hr : memory.tableAt pml4 (pathOf virtAddr).tail = some (0, last)) :
    memory.getPhysicalAddress pml4 virtAddr =
      match memory.frameAt pml4 (pathOf virtAddr) with
      | some frame => add64 frame (virtAddr % pageSize)
      | none => 0 := by
  have low : virtAddr &&& (pageSize - 1) = virtAddr % pageSize := Nat.and_two_pow_sub_one_eq_mod virtAddr 12
  obtain ⟨parent, above⟩ := tableAt_tail hr
  rw [getPhysicalAddress_eq, resolve_page (frameAt_table (List.cons_ne_nil _ _) above)
    (frameAt_table (List.cons_ne_nil _ _) hr), low]

/-- `MapPages` installs the translations of the request and no others. -/
theorem mapPages_translates (tree : TableTree memory pml4) (physAligned : physAddr % pageSize = 0)
    (physEnd : physAddr + count * pageSize ≤ 2 ^ 52) (virtAligned : virtAddr % pageSize = 0)
    (half : InHalf virtAddr count) (low : entryAddr flags = 0) (here : present flags = true)
    (mapped : memory.mapPages pml4 physAddr virtAddr count flags = (true, memory')) :
    (∀ i < count, ∀ offset < pageSize, memory'.getPhysicalAddress pml4 (virtAddr + i * pageSize + offset) =
        physAddr + i * pageSize + offset) ∧
      (∀ i < count, memory'.pageAt pml4 (pathOf (virtAddr + i * pageSize)) = some (physAddr + i * pageSize ||| flags)) ∧
      (∀ other, Canonical other → ¬(virtAddr ≤ other ∧ other < virtAddr + count * pageSize) →
        memory'.getPhysicalAddress pml4 other = memory.getPhysicalAddress pml4 other) ∧
      TableTree memory' pml4 ∧
      ∀ addr, memory'.InUse addr ↔ memory.InUse addr ∨ (memory'.IsTable pml4 addr ∧ ¬memory.IsTable pml4 addr) := by
  obtain ⟨grows, pages, ready⟩ := tree.mapPagesFrom mapped
  simp only [pageSize] at physAligned physEnd virtAligned
  unfold InHalf at half
  simp only [pageSize] at half
  have virt : ∀ i < count, pageOf virtAddr i = virtAddr + i * pageSize := fun i hin =>
    pageOf_eq (by simp only [pageSize]; omega)
  have phys : ∀ i < count, pageOf physAddr i = physAddr + i * pageSize := fun i hin =>
    pageOf_eq (by simp only [pageSize]; omega)
  have canonical : ∀ i < count, ∀ offset < pageSize, Canonical (virtAddr + i * pageSize + offset) := by
    intro i hin offset lt
    simp only [pageSize] at lt ⊢
    unfold Canonical
    omega
  have start : ∀ i < count, Canonical (virtAddr + i * pageSize) := fun i hin => canonical i hin 0 (by decide)
  have mappable : ∀ i < count, Mappable (physAddr + i * pageSize) := by
    intro i hin
    constructor <;> simp only [pageSize] <;> omega
  have written : ∀ i < count, memory'.pageAt pml4 (pathOf (virtAddr + i * pageSize)) =
      some (physAddr + i * pageSize ||| flags) := by
    intro i hin
    have last : ∀ k, i < k → k < 0 + count → pathOf (pageOf virtAddr i) ≠ pathOf (pageOf virtAddr k) := by
      intro k later bound eq
      rw [virt i hin, virt k (by omega)] at eq
      have samePage := page_of_pathOf (start i hin) (start k (by omega)) eq
      simp only [pageSize] at samePage
      omega
    rw [← virt i hin, pages _ (indices_pathOf _), writePages_last (Nat.zero_le i) (by omega) last, phys i hin]
    exact if_pos (by rw [present_flags (mappable i hin).aligned, here])
  have untouched : ∀ path, Indices path → (∀ j < count, path ≠ pathOf (virtAddr + j * pageSize)) →
      memory'.frameAt pml4 path = memory.frameAt pml4 path := by
    intro path hin away
    unfold PageMemory.frameAt
    rw [pages path hin, writePages_other fun j _ bound => virt j (by omega) ▸ away j (by omega)]
  refine ⟨fun i hin offset lt => ?_, written, fun other isCanonical out => ?_, grows.tree, grows.inUse⟩
  · have samePath : pathOf (virtAddr + i * pageSize + offset) = pathOf (virtAddr + i * pageSize) := by
      apply pathOf_congr
      simp only [pageSize] at lt ⊢
      omega
    obtain ⟨last, hr⟩ := ready i (Nat.zero_le i) (by omega)
    rw [virt i hin] at hr
    have rest : (virtAddr + i * pageSize + offset) % pageSize = offset := by
      simp only [pageSize] at lt ⊢
      omega
    rw [getPhysicalAddress_last (samePath ▸ hr), samePath, PageMemory.frameAt, written i hin, rest]
    change add64 (entryAddr (physAddr + i * pageSize ||| flags)) offset = _
    rw [entryAddr_flags (mappable i hin) low]
    apply add64_eq
    simp only [pageSize] at lt ⊢
    omega
  · have hin := indices_pathOf other
    have shorter : ∀ path, path.length ≠ 4 → Indices path → memory'.frameAt pml4 path = memory.frameAt pml4 path :=
      fun path short within => untouched path within fun j _ eq => short (congrArg List.length eq)
    have leaf : memory'.frameAt pml4 (pathOf other) = memory.frameAt pml4 (pathOf other) := by
      apply untouched _ hin
      intro j bound eq
      have samePage := page_of_pathOf isCanonical (start j bound) eq
      simp only [pageSize] at samePage out
      omega
    rw [getPhysicalAddress_eq, getPhysicalAddress_eq]
    unfold resolve
    rw [leaf, shorter (pathOf other).tail (by simp [pathOf]) hin.tail,
      shorter (pathOf other).tail.tail (by simp [pathOf]) hin.tail.tail]

theorem tableTree_empty (empty : ∀ i, i < tableSize → memory.words pml4 i = 0) (used : Managed pml4 → memory.InUse pml4) :
    TableTree memory pml4 := by
  have only : ∀ path node, Indices path → memory.tableAt pml4 path = some node → path = [] ∧ node = (3, pml4) := by
    intro path node hin hr
    induction path generalizing node with
    | nil => exact ⟨rfl, (Option.some.inj hr).symm⟩
    | cons i path ih =>
      obtain ⟨parent, above, named⟩ := Option.bind_eq_some_iff.mp hr
      obtain ⟨_, rfl⟩ := ih parent hin.tail above
      have zero : memory.levelEntry (3, pml4) i = (3, 0) := congrArg (Prod.mk 3) (empty i hin.head)
      rw [zero] at named
      exact nomatch named
  constructor
  · rintro addr ⟨path, level, hin, hr⟩ managed
    obtain ⟨_, eq⟩ := only path _ hin hr
    obtain ⟨_, rfl⟩ := Prod.mk.injEq .. ▸ eq
    exact used managed
  · grind

/-- All frames are free, and the table has no entries. -/
def blankMemory : PageMemory := ⟨⟨fun _ => 0, fun _ => 0⟩, fun _ _ => 0, []⟩

theorem blankMemory_tree : TableTree blankMemory 0x1000 := by
  refine tableTree_empty (fun _ _ => rfl) fun ⟨k, _, eq⟩ => ?_
  simp only [physBase] at eq
  omega

theorem blankMemory_pageAt (path : List Nat) : blankMemory.pageAt 0x1000 path = none := by
  cases path with
  | nil => rfl
  | cons i path =>
    cases hr : blankMemory.tableAt 0x1000 path with
    | none => exact pageAt_lost hr i
    | some node =>
      have absent : mapsPage (blankMemory.levelEntry node i) = false := @mapsPage_absent 0 rfl node.1
      rw [pageAt_cons hr, absent]
      rfl

theorem mapPages_translates_pair :
    (blankMemory.mapPages 0x1000 0x80000000 0x1FF000 2 7).2.getPhysicalAddress 0x1000 0x200123 = 0x80001123 := by
  have mapped : blankMemory.mapPages 0x1000 0x80000000 0x1FF000 2 7 =
      (true, (blankMemory.mapPages 0x1000 0x80000000 0x1FF000 2 7).2) :=
    Prod.ext (by decide +kernel) rfl
  exact (mapPages_translates blankMemory_tree (by decide) (by decide) (by decide) (.inl (by decide)) (by decide) (by decide)
    mapped).1 1 (by decide) 0x123 (by decide)

/-- A request that runs past the last page that an entry can hold is granted and translates elsewhere. -/
theorem mapPages_translates_elsewhere :
    TableTree blankMemory 0x1000 ∧ (blankMemory.mapPages 0x1000 (2 ^ 52 - 4096) 0x1FF000 2 7).1 = true ∧
      (blankMemory.mapPages 0x1000 (2 ^ 52 - 4096) 0x1FF000 2 7).2.getPhysicalAddress 0x1000 (0x1FF000 + 4096) ≠
        2 ^ 52 - 4096 + 4096 :=
  ⟨blankMemory_tree, by decide +kernel, by decide +kernel⟩

end

end RosKernel.Memory
