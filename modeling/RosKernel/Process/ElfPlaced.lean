import RosKernel.Memory.Allocates
import RosKernel.Memory.MapWords
import RosKernel.Process.ElfPages
import RosKernel.Process.Residency

/-! Where the pages of an image end up.

Every page gets a frame that was free. A page that is placed a second time gets a second frame, and nothing leads to the
first one any more.
-/

set_option autoImplicit false

namespace RosKernel.Memory

open List

section

variable {memory memory' : PageMemory} {roots shared : Nat → Prop} {root table frame j virtAddr : Nat} {path : List Nat}

theorem userPath_low (low : tableIndex 3 virtAddr < 256) : UserPath (pathOf virtAddr) := by
  constructor
  · exact Nat.le_refl 4
  · exact indices_pathOf virtAddr
  · intro i last
    simp only [pathOf, getLast?_cons_cons, getLast?_singleton, Option.mem_some_iff] at last
    exact last ▸ low

theorem tableIndex_mod (virtAddr : Nat) {level : Nat} (bound : level ≤ 3) :
    tableIndex level (virtAddr % 2 ^ 48) = tableIndex level virtAddr := by
  have levels : level = 0 ∨ level = 1 ∨ level = 2 ∨ level = 3 := by omega
  rw [tableIndex_eq, tableIndex_eq]
  rcases levels with rfl | rfl | rfl | rfl <;> omega

theorem pathOf_mod (virtAddr : Nat) : pathOf (virtAddr % 2 ^ 48) = pathOf virtAddr := by
  unfold pathOf
  rw [tableIndex_mod _ (by decide), tableIndex_mod _ (by decide), tableIndex_mod _ (by decide), tableIndex_mod _ (by decide)]

theorem mapPage_mod (memory : PageMemory) (pml4 physAddr virtAddr flags : Nat) :
    memory.mapPage pml4 physAddr (virtAddr % 2 ^ 48) flags = memory.mapPage pml4 physAddr virtAddr flags := by
  unfold PageMemory.mapPage
  rw [tableIndex_mod _ (by decide), tableIndex_mod _ (by decide), tableIndex_mod _ (by decide), tableIndex_mod _ (by decide)]

theorem low_mod (low : tableIndex 3 virtAddr < 256) : virtAddr % 2 ^ 48 < 2 ^ 47 := by
  rw [tableIndex_eq] at low
  omega

/-- The frame is no table below the top level, and none can be made in it. -/
def PageMemory.Outside (memory : PageMemory) (roots : Nat → Prop) (root frame : Nat) : Prop :=
  frame = root ∨ ¬Managed frame ∨ memory.Data roots frame

theorem PageTree.not_outside (tree : PageTree memory roots shared) (isRoot : roots root) (user : UserPath path)
    (short : path.length ≤ 3) (nonempty : path ≠ []) (hr : memory.walk root path = some frame) :
    ¬memory.Outside roots root frame := by
  obtain ⟨used, notShared⟩ := tree.own isRoot user short hr
  rintro (rfl | unmanaged | data)
  · exact nonempty (tree.once frame [] frame path frame isRoot .nil isRoot user rfl hr notShared).2
  · exact unmanaged used.managed
  · exact data.2 root path isRoot user short hr

theorem PageMemory.Outside.later (out : memory.Outside roots root frame) (eq : SameLeaves roots memory memory') :
    memory'.Outside roots root frame := out.imp_right (Or.imp_right (eq.data frame).mpr)

theorem PageTree.enterTables_words {rest : List (Nat × Bool)} {last : Option Nat} (tree : PageTree memory roots shared)
    (isRoot : roots root) (hr : memory.walk root path = some table)
    (entered : memory.enterTables table rest = (last, memory')) (user : UserPath ((rest.map Prod.fst).reverse ++ path))
    (inner : path.length + rest.length ≤ 3) (out : memory.Outside roots root frame)
    (notEntry : ∀ step ∈ rest.head?, ¬(frame = table ∧ j = step.1)) : memory'.words frame j = memory.words frame j := by
  induction rest generalizing memory table path with
  | nil =>
    cases entered
    rfl
  | cons first rest ih =>
    obtain ⟨idx, checkHuge⟩ := first
    simp only [length_cons] at inner
    simp only [map_cons, reverse_cons, append_assoc, singleton_append] at user
    unfold PageMemory.enterTables at entered
    have userHere : UserPath (idx :: path) := user.suffix (suffix_append ..)
    cases step : memory.enterTable table idx checkHuge with
    | mk next mid =>
      rw [step] at entered
      obtain ⟨tree', eq, _, walked⟩ := tree.enterTable isRoot userHere (by omega) hr step
      have later := out.later eq
      have notNext : next ≠ some frame := by
        intro isNext
        exact tree'.not_outside isRoot userHere (Nat.succ_le_of_lt (by omega)) (cons_ne_nil _ _) (walked frame isNext)
          later
      have kept : mid.words frame j = memory.words frame j := enterTable_words step (notEntry _ rfl) notNext
      cases next with
      | none =>
        cases entered
        exact kept
      | some next =>
        rw [← kept]
        apply ih tree' (walked next rfl) entered user (by simp only [length_cons]; omega) later
        exact fun _ _ both => notNext (congrArg some both.1.symm)

theorem PageTree.mapPage_words {physAddr flags : Nat} {ok : Bool} (tree : PageTree memory roots shared)
    (isRoot : roots root) (low : tableIndex 3 virtAddr < 256)
    (mapped : memory.mapPage root physAddr virtAddr flags = (ok, memory')) (out : memory.Outside roots root frame)
    (notEntry : frame = root → j ≠ tableIndex 3 virtAddr) : memory'.words frame j = memory.words frame j := by
  unfold PageMemory.mapPage at mapped
  have user := (userPath_low low).tail
  cases entered : memory.enterTables root
      [(tableIndex 3 virtAddr, false), (tableIndex 2 virtAddr, true), (tableIndex 1 virtAddr, true)] with
  | mk last mid =>
    rw [entered] at mapped
    have start := PageMemory.walk_nil memory root
    obtain ⟨tree', eq, _, walked⟩ := tree.enterTables isRoot start entered user (Nat.le_refl 3)
    have kept : mid.words frame j = memory.words frame j := by
      apply tree.enterTables_words isRoot start entered user (Nat.le_refl 3) out
      intro step isHead both
      rw [← Option.some.inj isHead] at both
      exact notEntry both.1 both.2
    cases last with
    | none =>
      cases mapped
      exact kept
    | some pt =>
      cases mapped
      rw [← kept, write_words, if_neg]
      rintro ⟨rfl, _⟩
      exact tree'.not_outside isRoot user (Nat.le_refl 3) (cons_ne_nil _ _) (walked frame rfl) (out.later eq)

theorem UserPage.low (h : UserPage virtAddr) : tableIndex 3 virtAddr < 256 := by
  have lt := h.small
  rw [tableIndex_eq]
  omega

end

end RosKernel.Memory

namespace RosKernel.Process

open Library Memory List

section

variable {image : Bytes} {place : ImagePlace} {pml4 current frame : Nat} {header : ProgramHeader}
  {memory memory' : PageMemory} {bytes : Bytes}

/-- An address space of its own. -/
def UserTree (memory : PageMemory) (pml4 : Nat) : Prop := PageTree memory (· = pml4) fun _ => False

/-- A page is placed in a new frame. -/
structure Places (memory memory' : PageMemory) (pml4 current frame : Nat) (bytes : Bytes) : Prop where
  tree : UserTree memory' pml4
  inUse : ∀ addr, memory.InUse addr → memory'.InUse addr
  fresh : ¬memory.InUse frame
  data : ∀ other, memory'.Data (· = pml4) other ↔ memory.Data (· = pml4) other ∨ other = frame
  leaves : ∀ path, UserPath path → path.length = 4 →
    memory'.walk pml4 path = if path = pathOf current then some frame else memory.walk pml4 path
  filled : ∀ i, memory'.words frame i = load bytes (8 * i) 8
  words : ∀ other, memory.Data (· = pml4) other → memory'.words other = memory.words other

theorem pageFlags_spec (header : ProgramHeader) : entryAddr header.pageFlags = 0 ∧ present header.pageFlags = true := by
  unfold ProgramHeader.pageFlags
  split <;> split <;> decide

theorem unreached_root (data : memory.Data (· = pml4) frame) : frame ≠ pml4 := by
  rintro rfl
  exact data.2 frame [] rfl .nil (Nat.zero_le 3) rfl

theorem loadPage_places (tree : UserTree memory pml4) (low : tableIndex 3 current < 256) (bounded : current < 2 ^ 64)
    (loaded : (loadPage image place pml4 header current memory).error = none) :
    ∃ frame, Places memory (loadPage image place pml4 header current memory).memory pml4 current frame
      (header.pageBytes place image current) := by
  unfold loadPage at loaded ⊢
  rcases tree.allocPage with none_ | ⟨frame, ht, allocated, managed, tree1, walks1, _, _, _, unreached, data1⟩
  · rw [none_] at loaded
    exact nomatch loaded
  rw [allocated] at loaded ⊢
  dsimp only at loaded ⊢
  rw [if_neg managed.pos] at loaded ⊢
  have lt : frame < 2 ^ 52 := managed.mappable.small
  rw [mapPages_one (by omega) bounded] at loaded ⊢
  obtain ⟨fresh, used⟩ : ¬memory.InUse frame ∧ ∀ addr, memory.InUse addr → ht.InUse addr := by
    rcases allocPage_cases memory with none_ | ⟨other, frames, alloc, otherManaged, fresh, inUse⟩
    · grind
    · grind
  have isData : ht.Data (· = pml4) frame := (data1 frame).mpr (.inr rfl)
  obtain ⟨tree2, same2⟩ := tree1.fill (fillPage ht frame (header.pageBytes place image current)) rfl isData.2
    fun other ne => Function.update_of_ne ne _ _
  have isData2 := (same2.data frame).mpr isData
  have may : (fillPage ht frame (header.pageBytes place image current)).MayMap (· = pml4) (fun _ => False) pml4
      (pathOf current) frame := by
    refine .inr ⟨isData2, fun no => no, ?_⟩
    intro root path isRoot user leaf hr
    rw [same2.leaves root path isRoot user leaf] at hr
    exact absurd hr (unreached root path isRoot user)
  cases mapping : (fillPage ht frame (header.pageBytes place image current)).mapPage pml4 frame current header.pageFlags with
  | mk ok after =>
    rw [mapping] at loaded
    cases ok with
    | false => exact nomatch loaded
    | true =>
      have mapping' := (mapPage_mod ..).trans mapping
      obtain ⟨tree3, _, data3, walks3⟩ := tree2.mapPage rfl (low_mod low) managed.mappable (pageFlags_spec header).1
        (pageFlags_spec header).2 (pathOf_mod current ▸ may) mapping'
      rw [pathOf_mod] at walks3
      have allocates := mapPage_allocates (fillPage ht frame (header.pageBytes place image current)) pml4 frame current
        header.pageFlags
      rw [mapping] at allocates
      refine ⟨frame, tree3, ?_, fresh, ?_, ?_, ?_, ?_⟩
      · exact fun addr old => allocates.inUse addr (used addr old)
      · intro other
        rw [data3, same2.data, data1]
      · intro path user leaf
        rw [walks3 pml4 path rfl user leaf, same2.leaves pml4 path rfl user leaf, walks1]
        simp only [true_and]
      · intro i
        rw [tree2.mapPage_words rfl low mapping (.inr (.inr isData2)) fun eq => absurd eq (unreached_root isData2)]
        have filled : (fillPage ht frame (header.pageBytes place image current)).words frame =
            fun i => load (header.pageBytes place image current) (8 * i) 8 := Function.update_self ..
        rw [filled]
      · intro other old
        have ne : other ≠ frame := fun eq => fresh (eq ▸ old.1)
        have later : ht.Data (· = pml4) other := (data1 other).mpr (.inl old)
        have later2 := (same2.data other).mpr later
        funext j
        rw [tree2.mapPage_words rfl low mapping (.inr (.inr later2)) fun eq => absurd eq (unreached_root later2)]
        have kept : ht.words = memory.words := by
          rcases allocPage_cases memory with none_ | ⟨_, _, alloc, _⟩
          · grind
          · grind
        rw [← kept]
        exact congrFun (Function.update_of_ne ne _ _) j

end

section

variable {image : Bytes} {place : ImagePlace} {pml4 frame : Nat} {page : SegmentPage} {pages : List SegmentPage}
  {start memory memory' : PageMemory} {view : Nat → Option Bytes}

/-- What pages hold after a page is placed. -/
def SegmentPage.put (image : Bytes) (place : ImagePlace) (page : SegmentPage) (view : Nat → Option Bytes) :
    Nat → Option Bytes :=
  Function.update view page.current (some (page.header.pageBytes place image page.current))

def placeAll (image : Bytes) (place : ImagePlace) (pages : List SegmentPage) (view : Nat → Option Bytes) : Nat → Option Bytes :=
  pages.foldl (fun view page => page.put image place view) view

/-- The user half has these pages, in frames taken since the start. -/
structure Shows (start memory : PageMemory) (pml4 : Nat) (view : Nat → Option Bytes) : Prop where
  tree : UserTree memory pml4
  inUse : ∀ addr, start.InUse addr → memory.InUse addr
  new : ∀ path frame, UserPath path → path.length = 4 → memory.walk pml4 path = some frame → ¬start.InUse frame
  blank : ∀ addr, UserPage addr → view addr = none → memory.walk pml4 (pathOf addr) = none
  shown : ∀ addr bytes, UserPage addr → view addr = some bytes →
    ∃ frame, memory.walk pml4 (pathOf addr) = some frame ∧ ∀ i, memory.words frame i = load bytes (8 * i) 8

theorem Shows.step (shows : Shows start memory pml4 view) (h : UserPage page.current)
    (places : Places memory memory' pml4 page.current frame (page.header.pageBytes place image page.current)) :
    Shows start memory' pml4 (page.put image place view) := by
  have elsewhere : ∀ addr, UserPage addr → addr ≠ page.current → pathOf addr ≠ pathOf page.current := by
    intro addr user ne eq
    exact ne (pathOf_inj user.small h.small user.aligned h.aligned eq)
  constructor
  · exact places.tree
  · exact fun addr used => places.inUse addr (shows.inUse addr used)
  · intro path other user leaf hr
    rw [places.leaves path user leaf] at hr
    split at hr
    · cases hr
      exact fun old => places.fresh (shows.inUse _ old)
    · exact shows.new path other user leaf hr
  · intro addr user none_
    unfold SegmentPage.put at none_
    by_cases eq : addr = page.current
    · grind
    · rw [Function.update_of_ne eq] at none_
      rw [places.leaves _ user.path rfl, if_neg (elsewhere addr user eq)]
      exact shows.blank addr user none_
  · intro addr bytes user shown
    unfold SegmentPage.put at shown
    by_cases eq : addr = page.current
    · subst eq
      rw [Function.update_self] at shown
      cases shown
      exact ⟨frame, by rw [places.leaves _ user.path rfl, if_pos rfl], places.filled⟩
    · rw [Function.update_of_ne eq] at shown
      obtain ⟨other, hr, filled⟩ := shows.shown addr bytes user shown
      refine ⟨other, ?_, fun i => ?_⟩
      · rw [places.leaves _ user.path rfl, if_neg (elsewhere addr user eq), hr]
      · rw [places.words other (shows.tree.leaf rfl user hr fun no => no).1, filled]

/-- Every frame taken since the start is reached. -/
def AllReached (start memory : PageMemory) (pml4 : Nat) : Prop :=
  ∀ frame, memory.InUse frame → start.InUse frame ∨ ∃ path, UserPath path ∧ memory.walk pml4 path = some frame

/-- A frame that was taken since the start, and that nothing leads to. -/
structure Lost (start memory : PageMemory) (pml4 frame : Nat) : Prop where
  new : ¬start.InUse frame
  data : memory.Data (· = pml4) frame
  unreached : memory.Unreached (· = pml4) frame

theorem Lost.not_allReached (lost : Lost start memory pml4 frame) : ¬AllReached start memory pml4 := by
  intro all
  cases all frame lost.data.1 with
  | inl old => exact lost.new old
  | inr hr =>
    obtain ⟨path, user, hr⟩ := hr
    exact lost.unreached pml4 path rfl user hr

theorem Lost.step {other current : Nat} {bytes : Bytes} (lost : Lost start memory pml4 frame)
    (places : Places memory memory' pml4 current other bytes) : Lost start memory' pml4 frame := by
  have data := (places.data frame).mpr (.inl lost.data)
  refine ⟨lost.new, data, ?_⟩
  rintro _ path rfl user hr
  by_cases leaf : path.length = 4
  · rw [places.leaves path user leaf] at hr
    split at hr
    · cases hr
      exact places.fresh lost.data.1
    · exact lost.unreached _ path rfl user hr
  · have depth := user.depth
    exact data.2 _ path rfl user (by omega) hr

theorem Shows.loses {bytes : Bytes} (shows : Shows start memory pml4 view) (h : UserPage page.current)
    (pre : view page.current = some bytes)
    (places : Places memory memory' pml4 page.current frame (page.header.pageBytes place image page.current)) :
    ∃ old, Lost start memory' pml4 old := by
  obtain ⟨old, hr, _⟩ := shows.shown _ bytes h pre
  obtain ⟨oldData, only⟩ := shows.tree.leaf rfl h hr fun no => no
  have data := (places.data old).mpr (.inl oldData)
  refine ⟨old, shows.new _ old h.path rfl hr, data, ?_⟩
  rintro _ path rfl user again
  by_cases leaf : path.length = 4
  · rw [places.leaves path user leaf] at again
    split at again
    · cases again
      exact places.fresh oldData.1
    · next away => exact away (only _ path rfl user again).2
  · have depth := user.depth
    exact data.2 _ path rfl user (by omega) again

theorem AllReached.step (shows : Shows start memory pml4 view) (all : AllReached start memory pml4)
    (h : UserPage page.current) (pre : view page.current = none)
    (places : Places memory memory' pml4 page.current frame (page.header.pageBytes place image page.current)) :
    AllReached start memory' pml4 := by
  intro other used
  by_cases data : memory'.Data (· = pml4) other
  · cases (places.data other).mp data with
    | inl old =>
      refine (all other old.1).imp_right fun ⟨path, user, hr⟩ => ⟨path, user, ?_⟩
      have leaf : path.length = 4 := by
        by_contra short
        have depth := user.depth
        exact old.2 pml4 path rfl user (by omega) hr
      rw [places.leaves path user leaf, if_neg, hr]
      rintro rfl
      rw [shows.blank _ h pre] at hr
      exact nomatch hr
    | inr eq =>
      subst eq
      exact .inr ⟨_, h.path, by rw [places.leaves _ h.path rfl, if_pos rfl]⟩
  · -- what is in use and no data is a table
    have table : ∃ path, UserPath path ∧ memory'.walk pml4 path = some other := by
      by_contra none_
      apply data
      refine ⟨used, ?_⟩
      rintro _ path rfl user _ hr
      exact none_ ⟨path, user, hr⟩
    exact .inr table

/-- No page is placed over another one. -/
def PagesApart (view : Nat → Option Bytes) (pages : List SegmentPage) : Prop :=
  (∀ page ∈ pages, view page.current = none) ∧ (pages.map SegmentPage.current).Nodup

theorem pagesApart_cons : PagesApart view (page :: pages) ↔ view page.current = none ∧ PagesApart (page.put image place view) pages := by
  unfold PagesApart SegmentPage.put
  rw [forall_mem_cons, map_cons, nodup_cons]
  constructor
  · grind
  · intro ⟨h, free, nodup⟩
    refine ⟨⟨h, fun other mem => ?_⟩, fun again => ?_, nodup⟩
    · by_cases eq : other.current = page.current
      · rw [eq, h]
      · have later := free other mem
        rwa [Function.update_of_ne eq] at later
    · obtain ⟨other, mem, eq⟩ := mem_map.mp again
      have later := free other mem
      rw [eq, Function.update_self] at later
      exact nomatch later

theorem placeAll_other {addr : Nat} (other : ∀ page ∈ pages, page.current ≠ addr) :
    placeAll image place pages view addr = view addr := by
  induction pages generalizing view with
  | nil => rfl
  | cons page pages ih =>
    have later := forall_mem_cons.mp other
    rw [placeAll, foldl_cons, ← placeAll, ih later.2]
    exact Function.update_of_ne later.1.symm _ _

theorem placeAll_mem (nodup : (pages.map SegmentPage.current).Nodup) (mem : page ∈ pages) :
    placeAll image place pages view page.current = some (page.header.pageBytes place image page.current) := by
  induction pages generalizing view with
  | nil => exact nomatch mem
  | cons first pages ih =>
    rw [map_cons, nodup_cons] at nodup
    rw [placeAll, foldl_cons, ← placeAll]
    cases mem_cons.mp mem with
    | inl eq =>
      subst eq
      rw [placeAll_other, SegmentPage.put, Function.update_self]
      intro other later eq
      exact nodup.1 (eq ▸ mem_map_of_mem later)
    | inr later => exact ih nodup.2 later

theorem loadPages_cons (user : ∀ other ∈ page :: pages, UserPage other.current) (shows : Shows start memory pml4 view)
    (loaded : (loadPages image place pml4 (page :: pages) memory).error = none) :
    ∃ mid frame, Places memory mid pml4 page.current frame (page.header.pageBytes place image page.current) ∧
      (loadPages image place pml4 pages mid).error = none ∧
      (loadPages image place pml4 (page :: pages) memory).memory = (loadPages image place pml4 pages mid).memory := by
  have first := user page (.head _)
  rw [loadPages] at loaded ⊢
  cases stopped : (loadPage image place pml4 page.header page.current memory).error with
  | some error =>
    rw [stopped] at loaded
    cases loaded
  | none =>
    rw [stopped] at loaded
    obtain ⟨frame, places⟩ := loadPage_places shows.tree first.low (Nat.lt_trans first.small (by decide)) stopped
    exact ⟨_, frame, places, loaded, rfl⟩

section

variable (user : ∀ page ∈ pages, UserPage page.current) (shows : Shows start memory pml4 view)
include user shows

section

variable (loaded : (loadPages image place pml4 pages memory).error = none)
include loaded

theorem loadPages_lost (lost : Lost start memory pml4 frame) :
    Lost start (loadPages image place pml4 pages memory).memory pml4 frame := by
  induction pages generalizing memory view with
  | nil => exact lost
  | cons page pages ih =>
    have both := forall_mem_cons.mp user
    obtain ⟨mid, other, places, later, leaves⟩ := loadPages_cons user shows loaded
    rw [leaves]
    exact ih both.2 (shows.step both.1 places) later (lost.step places)

theorem loadPages_shows :
    Shows start (loadPages image place pml4 pages memory).memory pml4 (placeAll image place pages view) := by
  induction pages generalizing memory view with
  | nil => exact shows
  | cons page pages ih =>
    have both := forall_mem_cons.mp user
    obtain ⟨mid, frame, places, later, leaves⟩ := loadPages_cons user shows loaded
    rw [leaves]
    exact ih both.2 (shows.step both.1 places) later

end

theorem loadPages_allReached (all : AllReached start memory pml4)
    (loaded : (loadPages image place pml4 pages memory).error = none) :
    AllReached start (loadPages image place pml4 pages memory).memory pml4 ↔ PagesApart view pages := by
  induction pages generalizing memory view with
  | nil => exact iff_of_true all ⟨fun page mem => (nomatch mem), nodup_nil⟩
  | cons page pages ih =>
    have both := forall_mem_cons.mp user
    obtain ⟨mid, frame, places, later, leaves⟩ := loadPages_cons user shows loaded
    rw [leaves]
    have next := shows.step both.1 places
    rw [@pagesApart_cons image place]
    cases pre : view page.current with
    | none =>
      rw [and_iff_right rfl]
      exact ih both.2 next (all.step shows both.1 pre places) later
    | some bytes =>
      obtain ⟨old, lost⟩ := shows.loses both.1 pre places
      apply iff_of_false
      · exact (loadPages_lost both.2 next later lost).not_allReached
      · exact fun ne => by cases ne.1

end

end

end RosKernel.Process
