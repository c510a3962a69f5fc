import RosKernel.Memory.MapRuns
import RosKernel.Memory.PageRanges
import RosKernel.Memory.UnmapTables

/-! `UnmapRange` on any page table whose tables form a tree: what each page of the range translates to.

Nothing is assumed about the frame allocators here. A page is passed over if it is not mapped, if it
is part of a large page, or if it is mapped to the frame at address zero.
-/

set_option autoImplicit false

namespace RosKernel.Memory

open Library

/-- No table is reached along two paths. -/
def Branching (memory : PageMemory) (pml4 : Nat) : Prop :=
  ∀ path path' level level' addr, Indices path → Indices path' → memory.tableAt pml4 path = some (level, addr) →
    memory.tableAt pml4 path' = some (level', addr) → path' = path

section

variable {memory memory' : PageMemory} {pml4 virtAddr : Nat}

theorem pageAt_words (eq : memory'.words = memory.words) (path : List Nat) :
    memory'.tableAt pml4 path = memory.tableAt pml4 path ∧ memory'.pageAt pml4 path = memory.pageAt pml4 path := by
  obtain ⟨frames, words, freed⟩ := memory
  obtain ⟨frames', words', freed'⟩ := memory'
  cases eq
  exact ⟨rfl, rfl⟩

theorem Branching.words (branching : Branching memory pml4) (eq : memory'.words = memory.words) :
    Branching memory' pml4 := by
  intro path path' level level' addr hin hin' hr hr'
  rw [(pageAt_words eq _).1] at hr hr'
  exact branching path path' level level' addr hin hin' hr hr'

theorem reclaim_words (eq : memory'.words = memory.words) (parent i table : Nat) :
    (memory'.reclaim parent i table).words = (memory.reclaim parent i table).words := by
  unfold PageMemory.reclaim PageMemory.emptyTable
  rw [eq]
  split
  · unfold PageMemory.free PageMemory.write
    rw [eq]
  · exact eq

theorem reclaimAll_words (eq : memory'.words = memory.words) (steps : List (Nat × Nat × Nat)) :
    (memory'.reclaimAll steps).words = (memory.reclaimAll steps).words := by
  induction steps generalizing memory memory' with
  | nil => exact eq
  | cons step steps ih =>
    rw [reclaimAll_cons, reclaimAll_cons]
    exact ih (reclaim_words eq step.1 step.2.1 step.2.2)

/-- The same tables with every frame in use, so that no question about the allocator arises. -/
def PageMemory.filled (memory : PageMemory) : PageMemory :=
  { memory with frames := { memory.frames with phys := fun _ => 255 } }

theorem Branching.filled (branching : Branching memory pml4) : TableTree memory.filled pml4 where
  taken _ _ managed := inUse_of_full rfl managed
  once := branching

theorem Branching.unmapEntry {removed : Bool} (branching : Branching memory pml4)
    (unmapped : memory.unmapEntry pml4 virtAddr = (removed, memory')) : Branching memory' pml4 ∧
      ∀ path, Indices path → memory'.pageAt pml4 path = if path = pathOf virtAddr then none else memory.pageAt pml4 path := by
  rcases unmapEntry_cases memory pml4 virtAddr with ⟨nothing, stops⟩ | ⟨pt, steps, hr, _, along, removes⟩
  · cases stops.symm.trans unmapped
    refine ⟨branching, fun path _ => ?_⟩
    split
    case isTrue h => rw [h, nothing]
    case isFalse => rfl
  · cases removes.symm.trans unmapped
    have hin := indices_pathOf virtAddr
    have tree := branching.filled
    obtain ⟨maps, _⟩ := tree.writeLast hin hr 0
    have walks : ∀ path, Indices path →
        (memory.filled.write pt (tableIndex 0 virtAddr) 0).tableAt pml4 path = memory.tableAt pml4 path :=
      fun _ hin' => tree.tableAt_writeLast hin hr 0 hin'
    have zero : (memory.filled.write pt (tableIndex 0 virtAddr) 0).wordAt pml4 (pathOf virtAddr) = 0 := by
      have stays := (walks (pathOf virtAddr).tail hin.tail).trans hr
      exact (wordAt_cons stays _).trans ((write_words _ _ _ _ _ _).trans (if_pos ⟨rfl, rfl⟩))
    obtain ⟨log, climb⟩ := maps.tree.climb hin (along.congr fun path part => walks path (hin.tail.suffix part)) zero
    have climbed := climb.climbed maps.tree hin
    have written : (memory.write pt (tableIndex 0 virtAddr) 0).words = (memory.filled.write pt (tableIndex 0 virtAddr) 0).words :=
      rfl
    have eq := reclaimAll_words written steps
    refine ⟨Branching.words climbed.tree.once eq, fun path hin' => ?_⟩
    rw [(pageAt_words eq path).2, climbed.pages path hin']
    exact maps.pages path hin'

end

/-- Some pages are unmapped, those at address zero excepted. -/
structure Sweeps (pages : Nat → Prop) (memory memory' : PageMemory) (pml4 : Nat) : Prop where
  branching : Branching memory' pml4
  gone : ∀ page, pages page → memory.frameAt pml4 (pathOf page) ≠ some 0 → memory'.pageAt pml4 (pathOf page) = none
  kept : ∀ path, Indices path → (∀ page, pages page → path = pathOf page → memory.frameAt pml4 path = some 0) →
    memory'.pageAt pml4 path = memory.pageAt pml4 path

section

variable {memory memory' memory'' : PageMemory} {pml4 : Nat} {pages pages' : Nat → Prop} {paging paging' : Paging}

theorem Sweeps.refl (branching : Branching memory pml4) : Sweeps (fun _ => False) memory memory pml4 :=
  ⟨branching, fun _ none_ => none_.elim, fun _ _ _ => rfl⟩

theorem Sweeps.congr (sweeps : Sweeps pages memory memory' pml4) (eq : ∀ page, pages page ↔ pages' page) :
    Sweeps pages' memory memory' pml4 := by
  obtain rfl : pages = pages' := funext fun page => propext (eq page)
  exact sweeps

theorem Sweeps.frameAt (sweeps : Sweeps pages memory memory' pml4) {path : List Nat} (hin : Indices path)
    (away : ∀ page, pages page → path = pathOf page → memory.frameAt pml4 path = some 0) :
    memory'.frameAt pml4 path = memory.frameAt pml4 path :=
  congrArg (Option.map entryAddr) (sweeps.kept path hin away)

theorem Sweeps.trans (first : Sweeps pages memory memory' pml4) (snd : Sweeps pages' memory' memory'' pml4) :
    Sweeps (fun page => pages page ∨ pages' page) memory memory'' pml4 := by
  refine ⟨snd.branching, fun page mem nz => ?_, fun path hin away => ?_⟩
  · have hin := indices_pathOf page
    by_cases early : ∃ other, pages other ∧ pathOf page = pathOf other
    · obtain ⟨other, otherMember, eq⟩ := early
      have gone : memory'.pageAt pml4 (pathOf page) = none := by
        rw [eq] at nz ⊢
        exact first.gone other otherMember nz
      have frame : memory'.frameAt pml4 (pathOf page) = none := congrArg (Option.map entryAddr) gone
      by_cases late : ∃ other, pages' other ∧ pathOf page = pathOf other
      · obtain ⟨other, otherMember, eq⟩ := late
        rw [eq] at frame ⊢
        exact snd.gone other otherMember (by rw [frame]; nofun)
      · rw [snd.kept _ hin fun other otherMember eq => absurd ⟨other, otherMember, eq⟩ late, gone]
    · have later := mem.resolve_left fun h => early ⟨page, h, rfl⟩
      refine snd.gone page later ?_
      rwa [first.frameAt hin fun other otherMember eq => absurd ⟨other, otherMember, eq⟩ early]
  · have early : ∀ page, pages page → path = pathOf page → memory.frameAt pml4 path = some 0 :=
      fun page mem => away page (.inl mem)
    rw [snd.kept path hin, first.kept path hin early]
    intro page mem eq
    rw [first.frameAt hin early]
    exact away page (.inr mem) eq

theorem getPhysicalAddress_page {page frame : Nat} (hal : page % pageSize = 0)
    (mapped : memory.frameAt pml4 (pathOf page) = some frame) : memory.getPhysicalAddress pml4 page = frame := by
  cases hr : memory.tableAt pml4 (pathOf page).tail with
  | none => exact nomatch (frameAt_lost hr (tableIndex 0 page)).symm.trans mapped
  | some node =>
    obtain ⟨level, last⟩ := node
    have height := tableAt_level hr
    obtain rfl : level = 0 := by
      have length : (pathOf page).tail.length = 3 := rfl
      omega
    rw [getPhysicalAddress_last hr, mapped, hal]
    have lt := frameAt_small mapped
    exact add64_eq (by omega)

section

variable (branching : Branching paging.memory pml4)
include branching

theorem Branching.unmapOne {page : Nat} {freePhysical : Bool} (hal : page % pageSize = 0)
    (unmapped : paging.unmapOne pml4 page freePhysical = some paging') :
    Sweeps (· = page) paging.memory paging'.memory pml4 := by
  unfold Paging.unmapOne at unmapped
  simp only at unmapped
  split at unmapped
  case isTrue absent =>
    cases unmapped
    refine ⟨branching, fun other eq nz => ?_, fun _ _ _ => rfl⟩
    subst eq
    -- a mapped page would translate to its frame
    cases mapped : paging.memory.frameAt pml4 (pathOf other) with
    | none => exact Option.map_eq_none_iff.mp mapped
    | some frame =>
      rw [getPhysicalAddress_page hal mapped] at absent
      exact absurd (absent ▸ mapped) nz
  case isFalse present_ =>
    obtain ⟨⟨removed, mid⟩, page_, eq⟩ := Option.map_eq_some_iff.mp unmapped
    have words : paging'.memory.words = mid.memory.words := by
      cases eq
      cases freePhysical <;> rfl
    have entry : ∃ ok, paging.memory.unmapEntry pml4 page = (ok, mid.memory) := by
      unfold Paging.unmapPage at page_
      cases res : paging.memory.unmapEntry pml4 page with
      | mk ok memory =>
        rw [res] at page_
        cases ok with
        | false =>
          cases page_
          exact ⟨false, rfl⟩
        | true =>
          obtain ⟨pool, _, same'⟩ := Option.map_eq_some_iff.mp page_
          cases same'
          exact ⟨true, rfl⟩
    obtain ⟨ok, entry⟩ := entry
    obtain ⟨branching', pages⟩ := branching.unmapEntry entry
    refine ⟨branching'.words words, fun other eq nz => ?_, fun path hin away => ?_⟩
    · subst eq
      rw [(pageAt_words words _).2, pages _ (indices_pathOf other), if_pos rfl]
    · rw [(pageAt_words words _).2, pages path hin, if_neg]
      intro h
      have zero := away page rfl h
      rw [h] at zero
      exact present_ (getPhysicalAddress_page hal zero)

theorem Branching.unmapFrom {start i n : Nat} {freePhysical : Bool} (hal : start % pageSize = 0)
    (unmapped : paging.unmapFrom pml4 start freePhysical i n = some paging') :
    Sweeps (fun page => ∃ j, i ≤ j ∧ j < i + n ∧ page = pageOf start j) paging.memory paging'.memory pml4 := by
  induction n generalizing paging i with
  | zero =>
    cases unmapped
    refine (Sweeps.refl branching).congr fun page => ⟨False.elim, ?_⟩
    rintro ⟨j, low, high, _⟩
    omega
  | succ n ih =>
    obtain ⟨mid, one, rest⟩ := Option.bind_eq_some_iff.mp unmapped
    have h : pageOf start i % pageSize = 0 := by
      simp only [pageOf, add64, mul64, pageSize] at hal ⊢
      omega
    have first := branching.unmapOne h one
    refine (first.trans (ih first.branching rest)).congr fun page => ?_
    constructor
    · rintro (rfl | ⟨j, low, high, rfl⟩)
      · exact ⟨i, Nat.le_refl i, by omega, rfl⟩
      · exact ⟨j, by omega, by omega, rfl⟩
    · rintro ⟨j, low, high, rfl⟩
      by_cases eq : j = i
      · exact .inl (by rw [eq])
      · exact .inr ⟨j, by omega, by omega, rfl⟩

theorem Branching.unmapRange {start size : Nat} {freePhysical : Bool} (hal : start % pageSize = 0)
    (whole : size % pageSize = 0) (below : start + size ≤ 2 ^ 47)
    (unmapped : paging.unmapRange pml4 start size freePhysical = some paging') :
    Sweeps (InRange start size) paging.memory paging'.memory pml4 := by
  have count : sub64 (add64 size pageSize) 1 / pageSize = size / 4096 := by
    simp only [sub64, add64, pageSize] at whole ⊢
    omega
  refine (branching.unmapFrom hal unmapped).congr fun page => ?_
  have addr : ∀ j, j < size / 4096 → pageOf start j = start + j * pageSize := by
    intro j hin
    apply pageOf_eq
    simp only [pageSize]
    omega
  simp only [pageSize] at hal whole
  constructor
  · rintro ⟨j, low, high, rfl⟩
    rw [addr j (by omega)]
    constructor <;> simp only [pageSize] <;> omega
  · rintro ⟨pageAligned, low, high⟩
    simp only [pageSize] at pageAligned
    refine ⟨(page - start) / 4096, Nat.zero_le _, by omega, ?_⟩
    rw [addr _ (by omega)]
    simp only [pageSize]
    omega

end

end

end RosKernel.Memory
