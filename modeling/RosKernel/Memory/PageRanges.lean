import RosKernel.Memory.PageCalls

/-! `UnmapRange` on page tables that are in order: which pages go, and which frames. -/

set_option autoImplicit false

namespace RosKernel.Memory

open Library

/-- The address of a page of the user half. -/
structure UserPage (virtAddr : Nat) : Prop where
  aligned : virtAddr % pageSize = 0
  small : virtAddr < 2 ^ 47

theorem UserPage.path {virtAddr : Nat} (page : UserPage virtAddr) : UserPath (pathOf virtAddr) :=
  userPath_pathOf page.small

theorem UserPage.inj {one other : Nat} (first : UserPage one) (snd : UserPage other)
    (eq : pathOf one = pathOf other) : one = other :=
  pathOf_inj first.small snd.small first.aligned snd.aligned eq

/-- From `memory` to `memory'` the pages of one address space are unmapped, and the frames
behind those of `freed` are given back. -/
structure Cleared (roots shared : Nat → Prop) (root : Nat) (pages freed : Nat → Prop) (memory memory' : PageMemory) :
    Prop where
  tree : PageTree memory' roots shared
  frees : ∃ log, Frees memory memory' log
  data : ∀ frame, memory'.Data roots frame ↔
    memory.Data roots frame ∧ ¬ ∃ page, freed page ∧ memory.walk root (pathOf page) = some frame
  gone : ∀ page, pages page → memory'.walk root (pathOf page) = none
  kept : ∀ root' path, roots root' → UserPath path → path.length = 4 →
    ¬ (root' = root ∧ ∃ page, pages page ∧ path = pathOf page) → memory'.walk root' path = memory.walk root' path

section

variable {roots shared pages freed pages' freed' : Nat → Prop} {root : Nat} {memory memory' memory'' : PageMemory}

theorem Cleared.nothing (tree : PageTree memory roots shared) :
    Cleared roots shared root (fun _ => False) (fun _ => False) memory memory := by
  refine ⟨tree, ⟨[], .nothing rfl fun _ => .rfl⟩, ?_, fun _ none_ => none_.elim, fun _ _ _ _ _ _ => rfl⟩
  intro frame
  simp

theorem Cleared.walk_of_not {page : Nat} (cleared : Cleared roots shared root pages freed memory memory')
    (user : ∀ page, pages page → UserPage page) (isRoot : roots root) (h : UserPage page) (not : ¬ pages page) :
    memory'.walk root (pathOf page) = memory.walk root (pathOf page) := by
  apply cleared.kept root (pathOf page) isRoot h.path rfl
  intro ⟨_, other, otherPages, eq⟩
  rw [← h.inj (user other otherPages) eq] at otherPages
  exact not otherPages

theorem Cleared.trans (first : Cleared roots shared root pages freed memory memory')
    (snd : Cleared roots shared root pages' freed' memory' memory'') (isRoot : roots root)
    (user : ∀ page, pages page → UserPage page) (user' : ∀ page, freed' page → UserPage page)
    (agree : ∀ page, freed' page → pages page → freed page) :
    Cleared roots shared root (fun page => pages page ∨ pages' page) (fun page => freed page ∨ freed' page)
      memory memory'' := by
  obtain ⟨log, frees⟩ := first.frees
  obtain ⟨log', frees'⟩ := snd.frees
  refine ⟨snd.tree, ⟨log ++ log', frees.trans frees'⟩, ?_, ?_, ?_⟩
  · intro frame
    rw [snd.data, first.data, and_assoc]
    refine and_congr_right fun _ => ⟨?_, ?_⟩
    · rintro ⟨notFirst, notSecond⟩ ⟨page, either, hr⟩
      by_cases early : freed page
      · exact notFirst ⟨page, early, hr⟩
      · have late := either.resolve_left early
        have untouched : ¬ pages page := fun wasCleared => early (agree page late wasCleared)
        rw [← first.walk_of_not user isRoot (user' page late) untouched] at hr
        exact notSecond ⟨page, late, hr⟩
    · intro none_
      constructor
      · grind
      · intro ⟨page, late, hr⟩
        have untouched : ¬ pages page := by
          intro wasCleared
          rw [first.gone page wasCleared] at hr
          exact nomatch hr
        rw [first.walk_of_not user isRoot (user' page late) untouched] at hr
        exact none_ ⟨page, .inr late, hr⟩
  · intro page either
    by_cases late : pages' page
    · exact snd.gone page late
    · have early := either.resolve_right late
      by_cases eq : ∃ other, pages' other ∧ pathOf page = pathOf other
      · obtain ⟨other, otherPages, path⟩ := eq
        rw [path]
        exact snd.gone other otherPages
      · rw [snd.kept root (pathOf page) isRoot (user page early).path rfl fun both => eq both.2]
        exact first.gone page early
  · intro root' path isRoot' userPath leaf away
    rw [snd.kept root' path isRoot' userPath leaf, first.kept root' path isRoot' userPath leaf]
    · grind
    · grind

theorem Cleared.congr (cleared : Cleared roots shared root pages freed memory memory')
    (samePages : ∀ page, pages page ↔ pages' page) (sameFreed : ∀ page, freed page ↔ freed' page) :
    Cleared roots shared root pages' freed' memory memory' := by
  obtain rfl : pages = pages' := funext fun page => propext (samePages page)
  obtain rfl : freed = freed' := funext fun page => propext (sameFreed page)
  exact cleared

theorem PageTree.leaf {page frame : Nat} (tree : PageTree memory roots shared) (isRoot : roots root)
    (h : UserPage page) (hr : memory.walk root (pathOf page) = some frame) (notShared : ¬ shared frame) :
    memory.Data roots frame ∧ ∀ root' path, roots root' → UserPath path → memory.walk root' path = some frame →
      root' = root ∧ path = pathOf page := by
  have only : ∀ root' path, roots root' → UserPath path → memory.walk root' path = some frame →
      root' = root ∧ path = pathOf page := by
    intro root' path isRoot' userPath again
    exact tree.once root (pathOf page) root' path frame isRoot h.path isRoot' userPath hr again notShared
  refine ⟨⟨?_, ?_⟩, only⟩
  · cases tree.used root (pathOf page) frame isRoot h.path hr with
    | inl alone => exact alone.1
    | inr leaf => exact absurd leaf.2 notShared
  · intro root' path isRoot' userPath short again
    obtain ⟨_, rfl⟩ := only root' path isRoot' userPath again
    exact absurd short (by simp [pathOf])

end

section

variable {roots shared : Nat → Prop} {root : Nat} {paging : Paging} {nodes spare : List VmaNode}

/-- Both sides of the state are in order. -/
structure Paging.InOrder (paging : Paging) (roots shared : Nat → Prop) : Prop where
  tree : PageTree paging.memory roots shared
  pool : ∃ nodes spare, Layout paging.pool nodes spare
  nonzero : ¬ shared 0

section

variable {page : Nat} (order : paging.InOrder roots shared) (isRoot : roots root) (h : UserPage page)
include order isRoot h

theorem Paging.InOrder.unmapPage : ∃ removed paging', paging.unmapPage root page = some (removed, paging') ∧
      Detached roots shared root (pathOf page) paging.memory paging'.memory ∧
      ∃ nodes spare, Layout paging'.pool nodes spare := by
  unfold Paging.unmapPage
  cases unmapped : paging.memory.unmapEntry root page with
  | mk removed memory' =>
    have detached := order.tree.unmapEntry isRoot h.small unmapped
    cases removed with
    | false => exact ⟨false, _, rfl, detached, order.pool⟩
    | true =>
      obtain ⟨nodes, spare, layout⟩ := order.pool
      obtain ⟨pool', logged, nodes', spare', freed, layout'⟩ := virtualFreePages_any layout page 1
      simp only [freed, Option.map_some]
      exact ⟨true, _, rfl, detached, nodes', spare', layout'⟩

theorem Paging.InOrder.unmapOne {freePhysical : Bool}
    (own : freePhysical = true → ∀ frame, paging.memory.walk root (pathOf page) = some frame → ¬ shared frame) :
    ∃ paging', paging.unmapOne root page freePhysical = some paging' ∧ paging'.InOrder roots shared ∧
      Cleared roots shared root (· = page) (fun other => freePhysical = true ∧ other = page)
        paging.memory paging'.memory := by
  unfold Paging.unmapOne
  simp only [order.tree.getPhysicalAddress isRoot h.small h.aligned]
  cases hr : paging.memory.walk root (pathOf page) with
  | none =>
    refine ⟨paging, by rw [Option.getD_none, if_pos rfl], order, order.tree, ⟨[], .nothing rfl fun _ => .rfl⟩, ?_, ?_,
      fun _ _ _ _ _ _ => rfl⟩
    · intro frame
      constructor
      · intro data
        refine ⟨data, ?_⟩
        rintro ⟨_, ⟨_, rfl⟩, mapped⟩
        rw [hr] at mapped
        exact nomatch mapped
      · exact And.left
    · rintro _ rfl
      exact hr
  | some frame =>
    have nz : frame ≠ 0 := by
      cases order.tree.used root (pathOf page) frame isRoot h.path hr with
      | inl alone => exact alone.1.managed.pos
      | inr leaf =>
        rintro rfl
        exact order.nonzero leaf.2
    obtain ⟨removed, paging', unmapped, detached, layout⟩ := order.unmapPage isRoot h
    rw [Option.getD_some, if_neg nz, unmapped, Option.map_some]
    have gone : paging'.memory.walk root (pathOf page) = none := by
      rw [detached.leaves root (pathOf page) isRoot h.path rfl, if_pos ⟨rfl, rfl⟩]
    have kept : ∀ root' path, roots root' → UserPath path → path.length = 4 →
        ¬ (root' = root ∧ ∃ other, other = page ∧ path = pathOf other) →
        paging'.memory.walk root' path = paging.memory.walk root' path := by
      intro root' path isRoot' userPath leaf away
      rw [detached.leaves root' path isRoot' userPath leaf, if_neg]
      intro ⟨eq, isPath⟩
      exact away ⟨eq, page, rfl, isPath⟩
    cases freePhysical with
    | false =>
      refine ⟨_, rfl, ⟨detached.tree, layout, order.nonzero⟩, detached.tree, detached.frees, ?_, ?_, kept⟩
      · intro other
        have none_ : ¬ ∃ other' : Nat, (false = true ∧ other' = page) ∧
            paging.memory.walk root (pathOf other') = some other := fun ⟨_, ⟨absurd_, _⟩, _⟩ => nomatch absurd_
        rw [if_neg Bool.false_ne_true, detached.data]
        exact ⟨fun data => ⟨data, none_⟩, And.left⟩
      · rintro _ rfl
        exact gone
    | true =>
      have notShared := own rfl frame hr
      obtain ⟨data, only⟩ := order.tree.leaf isRoot h hr notShared
      have dataAfter := (detached.data frame).mpr data
      -- The page was the only path to its frame, so nothing leads to the frame now.
      have unreached : paging'.memory.Unreached roots frame := by
        intro root' path isRoot' userPath again
        by_cases leaf : path.length = 4
        · rw [detached.leaves root' path isRoot' userPath leaf] at again
          split at again
          · exact nomatch again
          next away => exact away (only root' path isRoot' userPath again)
        · have := userPath.depth
          exact dataAfter.2 root' path isRoot' userPath (by omega) again
      obtain ⟨tree', frees, walks, data'⟩ := detached.tree.free dataAfter notShared unreached
      obtain ⟨log, frees'⟩ := detached.frees
      refine ⟨_, rfl, ⟨tree', layout, order.nonzero⟩, tree', ⟨_, frees'.trans frees⟩, ?_, ?_, ?_⟩
      · intro other
        rw [if_pos rfl]
        simp only [data', detached.data]
        refine and_congr_right fun _ => ⟨?_, ?_⟩
        · grind
        · grind
      · grind
      · grind

end

/-- A page that starts in a range. -/
structure InRange (start size page : Nat) : Prop where
  aligned : page % pageSize = 0
  low : start ≤ page
  high : page < start + size

theorem InRange.user {start size page : Nat} (below : start + size ≤ 2 ^ 47) (hin : InRange start size page) :
    UserPage page := by
  refine ⟨hin.aligned, ?_⟩
  have := hin.high
  omega

theorem inRange_succ {start : Nat} (pages : Nat) (hal : start % pageSize = 0) (page : Nat) :
    InRange start ((pages + 1) * pageSize) page ↔ page = start ∨ InRange (start + pageSize) (pages * pageSize) page := by
  simp only [pageSize] at *
  constructor
  · rintro ⟨pageAligned, low, high⟩
    simp only [pageSize] at pageAligned
    by_cases eq : page = start
    · exact .inl eq
    · exact .inr ⟨pageAligned, by omega, by omega⟩
  · rintro (rfl | ⟨pageAligned, low, high⟩)
    · exact ⟨hal, by omega, by omega⟩
    · exact ⟨pageAligned, by omega, by omega⟩

theorem inRange_zero (start page : Nat) : ¬ InRange start (0 * pageSize) page := by
  intro ⟨_, low, high⟩
  omega

theorem Paging.InOrder.unmapFrom {start i pages : Nat} (freePhysical : Bool) (order : paging.InOrder roots shared)
    (isRoot : roots root) (hal : start % pageSize = 0) (below : start + (i + pages) * pageSize ≤ 2 ^ 47)
    (own : freePhysical = true → ∀ page, InRange (start + i * pageSize) (pages * pageSize) page →
      ∀ frame, paging.memory.walk root (pathOf page) = some frame → ¬ shared frame) :
    ∃ paging', paging.unmapFrom root start freePhysical i pages = some paging' ∧ paging'.InOrder roots shared ∧
      Cleared roots shared root (InRange (start + i * pageSize) (pages * pageSize))
        (fun page => freePhysical = true ∧ InRange (start + i * pageSize) (pages * pageSize) page)
        paging.memory paging'.memory := by
  induction pages generalizing paging i with
  | zero =>
    refine ⟨paging, rfl, order, (Cleared.nothing order.tree).congr ?_ ?_⟩
    · intro page
      exact (iff_false_intro (inRange_zero _ page)).symm
    · intro page
      exact (iff_false_intro fun both => inRange_zero _ page both.2).symm
  | succ pages ih =>
    have next : start + (i + 1) * pageSize = start + i * pageSize + pageSize := by
      rw [Nat.succ_mul, Nat.add_assoc]
    have firstAligned : (start + i * pageSize) % pageSize = 0 := by rw [Nat.add_mul_mod_self_right, hal]
    have bound : start + i * pageSize + (pages + 1) * pageSize ≤ 2 ^ 47 := by
      rw [Nat.add_assoc, ← Nat.add_mul]
      exact below
    have split := inRange_succ pages firstAligned
    have hin : ∀ page, InRange (start + i * pageSize) ((pages + 1) * pageSize) page → UserPage page :=
      fun page => InRange.user bound
    have addr : add64 start (mul64 i pageSize) = start + i * pageSize := by
      have lt : start + i * pageSize < 2 ^ 64 := Nat.lt_of_le_of_lt (Nat.le_trans (Nat.le_add_right _ _) bound) (by decide)
      rw [mul64_eq (Nat.lt_of_le_of_lt (Nat.le_add_left _ _) lt), add64_eq lt]
    have rest := fun paging => @ih paging (i + 1)
    simp only [next, show i + 1 + pages = i + (pages + 1) by omega] at rest
    generalize start + i * pageSize = h at *
    have user : UserPage h := hin h ((split h).mpr (.inl rfl))
    obtain ⟨mid, cleared1, order1, one⟩ := order.unmapOne isRoot user fun free =>
      own free h ((split h).mpr (.inl rfl))
    have ownRest : freePhysical = true → ∀ page, InRange (h + pageSize) (pages * pageSize) page →
        ∀ frame, mid.memory.walk root (pathOf page) = some frame → ¬ shared frame := by
      intro free page later frame hr
      have mem := (split page).mpr (.inr later)
      have other : page ≠ h := by
        rintro rfl
        exact absurd later.low (by simp only [pageSize]; omega)
      rw [one.walk_of_not (fun page eq => eq ▸ user) isRoot (hin page mem) other] at hr
      exact own free page mem frame hr
    obtain ⟨final, cleared2, order2, others⟩ := rest mid order1 below ownRest
    refine ⟨final, ?_, order2, ?_⟩
    · rw [Paging.unmapFrom, addr, cleared1, Option.bind_some, cleared2]
    · have both := one.trans others isRoot (fun page eq => eq ▸ user)
        (fun page late => hin page ((split page).mpr (.inr late.2))) (fun page late eq => ⟨late.1, eq⟩)
      apply both.congr
      · intro page
        exact (split page).symm
      · intro page
        rw [split, and_or_left]

theorem Paging.InOrder.unmapRange {start size : Nat} {freePhysical : Bool} (order : paging.InOrder roots shared)
    (isRoot : roots root) (hal : start % pageSize = 0) (whole : size % pageSize = 0)
    (below : start + size ≤ 2 ^ 47)
    (own : freePhysical = true → ∀ page, InRange start size page →
      ∀ frame, paging.memory.walk root (pathOf page) = some frame → ¬ shared frame) :
    ∃ paging', paging.unmapRange root start size freePhysical = some paging' ∧ paging'.InOrder roots shared ∧
      Cleared roots shared root (InRange start size) (fun page => freePhysical = true ∧ InRange start size page)
        paging.memory paging'.memory := by
  simp only [pageSize] at whole
  have count : sub64 (add64 size pageSize) 1 / pageSize = size / 4096 := by
    simp only [sub64, add64, pageSize]
    omega
  have length : size / 4096 * pageSize = size := by
    simp only [pageSize]
    omega
  unfold Paging.unmapRange
  rw [count]
  have first : start + 0 * pageSize = start := by rw [Nat.zero_mul, Nat.add_zero]
  have bound : start + (0 + size / 4096) * pageSize ≤ 2 ^ 47 := by rwa [Nat.zero_add, length]
  have loop := order.unmapFrom freePhysical isRoot hal bound
  rw [length, first] at loop
  exact loop own

end

end RosKernel.Memory
