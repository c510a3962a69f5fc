import Mathlib.Data.List.TakeWhile
import RosKernel.Memory.UserCopy
import RosKernel.Process.ElfPlaced
import RosKernel.Process.ElfReads

/-! Whether a load puts into memory what the file says.

It does when no page belongs to two segments. Where segments share a page, the later one gets a new page of zeros, and
what the earlier one had there is gone.
-/

set_option autoImplicit false

namespace RosKernel.Process

open Library Memory List

section

variable {memory : PageMemory} {pml4 virtAddr frame : Nat}

/-- The byte at an address, by the processor's walk. -/
def userByte (memory : PageMemory) (pml4 virtAddr : Nat) : Option UInt8 := (translation memory virtAddr pml4).map memory.byteAt

theorem UserTree.translation_eq (tree : UserTree memory pml4) (lt : virtAddr < 2 ^ 47)
    (hr : memory.walk pml4 (pathOf virtAddr) = some frame) :
    translation memory virtAddr pml4 = some (frame + virtAddr % pageSize) := by
  have user := userPath_pathOf lt
  unfold translation
  rw [leaf_eq]
  -- each level is present and plain, or the walk would have stopped there
  rcases tree.entry_cases rfl user.tail.tail.tail (Nat.zero_le 2) (PageMemory.walk_nil memory pml4) with
    ⟨_, lost⟩ | ⟨here3, _, reached3⟩
  · have gone := walk_none_cons (tableIndex 0 virtAddr) (walk_none_cons (tableIndex 1 virtAddr)
      (walk_none_cons (tableIndex 2 virtAddr) lost))
    exact nomatch gone.symm.trans hr
  rcases tree.entry_cases rfl user.tail.tail (Nat.succ_le_succ (Nat.zero_le 1)) reached3 with ⟨_, lost⟩ | ⟨here2, plain2, reached2⟩
  · have gone := walk_none_cons (tableIndex 0 virtAddr) (walk_none_cons (tableIndex 1 virtAddr) lost)
    exact nomatch gone.symm.trans hr
  rcases tree.entry_cases rfl user.tail (Nat.le_refl 2) reached2 with ⟨_, lost⟩ | ⟨here1, plain1, reached1⟩
  · have gone := walk_none_cons (tableIndex 0 virtAddr) lost
    exact nomatch gone.symm.trans hr
  have last : entryFrame (memory.words (entryAddr (memory.words (entryAddr (memory.words
      (entryAddr (memory.words pml4 (tableIndex 3 virtAddr))) (tableIndex 2 virtAddr))) (tableIndex 1 virtAddr)))
      (tableIndex 0 virtAddr)) = some frame := (PageMemory.walk_cons _ reached1).symm.trans hr
  simp only [here3, here2, plain2, here1, plain1, Bool.not_true, Bool.false_eq_true, if_false]
  unfold entryFrame at last
  split at last
  case isTrue here0 =>
    generalize memory.words _ (tableIndex 0 virtAddr) = pte at here0 last
    rw [if_pos here0, ← Option.some.inj last, entryAddr_eq]
    rfl
  case isFalse => exact nomatch last

theorem userByte_shown {start : PageMemory} {view : Nat → Option Bytes} {bytes : Bytes} (shows : Shows start memory pml4 view)
    (lt : virtAddr < 2 ^ 47) (shown : view (virtAddr / 4096 * 4096) = some bytes) :
    userByte memory pml4 virtAddr = some (bytes (virtAddr % 4096)) := by
  have h : UserPage (virtAddr / 4096 * 4096) := ⟨Nat.mul_mod_left _ _, by omega⟩
  obtain ⟨frame, hr, filled⟩ := shows.shown _ bytes h shown
  have samePath : pathOf (virtAddr / 4096 * 4096) = pathOf virtAddr := by
    simp only [pathOf, tableIndex_eq, List.cons.injEq, and_true]
    omega
  rw [samePath] at hr
  have hal : frame % pageSize = 0 := (walk_mappable hr).aligned
  unfold userByte
  rw [shows.tree.translation_eq lt hr, Option.map_some, byteAt_page hal (Nat.mod_lt _ (by decide)) filled]
  rfl

end

section

variable {image : Bytes} {place : ImagePlace} {header : ProgramHeader} {k : Nat}

/-- The segment lies in the user half. -/
def ProgramHeader.InUserHalf (place : ImagePlace) (header : ProgramHeader) : Prop :=
  header.relocatedVaddr place + header.memsz ≤ 2 ^ 47

section

variable (user : header.InUserHalf place)
include user

theorem vaddrPage_eq : header.vaddrPage place = header.relocatedVaddr place / 4096 * 4096 := by
  unfold ProgramHeader.InUserHalf at user
  exact pageMask_eq (by omega)

theorem pageCount_eq : header.sizePage place / pageSize =
    (header.relocatedVaddr place + header.memsz + 4095) / 4096 - header.relocatedVaddr place / 4096 := by
  have page := vaddrPage_eq user
  unfold ProgramHeader.InUserHalf at user
  unfold ProgramHeader.sizePage
  rw [add64_eq (by omega), pageAlign_eq (by omega), page, sub64_eq (by omega) (by omega), ← Nat.sub_mul]
  exact Nat.mul_div_cancel _ (by decide)

theorem page_current {i : Nat} (hin : i < header.sizePage place / pageSize) :
    (header.page place i).current = (header.relocatedVaddr place / 4096 + i) * 4096 := by
  have page := vaddrPage_eq user
  rw [pageCount_eq user] at hin
  unfold ProgramHeader.InUserHalf at user
  unfold ProgramHeader.page pageSize
  rw [page, mul64_eq (by omega), add64_eq (by omega), Nat.add_mul]

theorem userPage_page {page : SegmentPage} (mem : page ∈ header.pages place) : UserPage page.current := by
  obtain ⟨i, hin, rfl⟩ := mem_map.mp mem
  have lt : i < header.sizePage place / pageSize := by
    have both := mem_range'_1.mp hin
    omega
  have eq := page_current user lt
  rw [pageCount_eq user] at lt
  unfold ProgramHeader.InUserHalf at user
  rw [eq]
  constructor
  · exact Nat.mul_mod_left _ _
  · omega

theorem exists_page (hin : k < header.memsz) :
    ∃ page ∈ header.pages place, page.header = header ∧ page.current = (header.relocatedVaddr place + k) / 4096 * 4096 := by
  have count := pageCount_eq user
  let i := (header.relocatedVaddr place + k) / 4096 - header.relocatedVaddr place / 4096
  have lt : i < header.sizePage place / pageSize := by
    rw [count]
    omega
  refine ⟨header.page place i, mem_map.mpr ⟨i, ?_, rfl⟩, rfl, ?_⟩
  · exact mem_range'_1.mpr (by omega)
  · rw [page_current user lt]
    congr 1
    omega

theorem pageBytes_eq (sized : header.filesz ≤ header.memsz) (inFile : header.offset + header.filesz ≤ 2 ^ 64)
    (hin : k < header.memsz) :
    header.pageBytes place image ((header.relocatedVaddr place + k) / 4096 * 4096) ((header.relocatedVaddr place + k) % 4096) =
      if k < header.filesz then image (header.offset + k) else 0 := by
  unfold ProgramHeader.InUserHalf at user
  unfold ProgramHeader.pageBytes ProgramHeader.srcOffset ProgramHeader.copyStart ProgramHeader.copyEnd pageSize
  generalize header.relocatedVaddr place = start at user
  dsimp only
  rw [add64_eq (a := (start + k) / 4096 * 4096) (by omega), add64_eq (a := start) (by omega)]
  by_cases copied : k < header.filesz
  · rw [if_pos copied, if_pos]
    · split
      all_goals
        rw [sub64_eq (by omega) (by omega), add64_eq (a := header.offset) (by omega), add64_eq (by omega)]
        congr 1
        omega
    · split <;> split <;> omega
  · rw [if_neg copied, if_neg]
    split <;> split <;> omega

end

end

section

variable {pml4 : Nat} {place : ImagePlace} {reloc : Relocator}

def ElfEvent.writes : ElfEvent → Bool
  | .relocated _ _ => true
  | _ => false

theorem applyRelocations_still {table : Relocator.RelaTable} {i count : Nat}
    (still : ∀ event ∈ (Relocator.applyRelocations pml4 place table i count reloc).2.2, event.writes = false) :
    (Relocator.applyRelocations pml4 place table i count reloc).2.1.memory = reloc.memory := by
  induction count generalizing i reloc with
  | zero => rfl
  | succ count ih =>
    rw [Relocator.applyRelocations] at still ⊢
    cases read : reloc.readRela pml4 (add64 table.addr (mul64 i table.ent)) with
    | none => rfl
    | some res =>
      obtain ⟨entry, mid⟩ := res
      rw [read] at still
      dsimp only at still ⊢
      rw [← readRela_memory read]
      split
      next handled =>
        rw [if_pos handled] at still
        cases written : mid.writeUser64 pml4 (entry.target place) (add64 place.targetBase entry.addend) with
        | none => rfl
        | some res =>
          rw [written] at still
          cases still _ (.head _)
      next other =>
        rw [if_neg other] at still
        exact ih still

theorem relocateImage_still {fuel : Nat} {image : Bytes} {memory : PageMemory}
    (still : ∀ event ∈ (relocateImage fuel image place pml4 memory).2.2, event.writes = false) :
    (relocateImage fuel image place pml4 memory).2.1 = memory := by
  unfold relocateImage at still ⊢
  cases hf : dynamicHeader image with
  | none => rfl
  | some header =>
    rw [hf] at still
    have later : ∀ event ∈ (Relocator.processDynamicSection pml4 place fuel header ⟨memory, none, none⟩).2.2,
        event.writes = false := fun event mem => still event (mem_append_right _ mem)
    dsimp only
    unfold Relocator.processDynamicSection at later ⊢
    cases hf : Relocator.findTable pml4 place fuel header ⟨memory, none, none⟩ with
    | endless => rfl
    | unreadable => rfl
    | done table reloc =>
      rw [hf] at later
      have eq : reloc.memory = memory := readDynamic_memory hf
      dsimp only at later ⊢
      split
      next => exact eq
      next some_ =>
        rw [if_neg some_] at later
        exact (applyRelocations_still later).trans eq

end

section

variable {image : Bytes}

def lowestVaddr (image : Bytes) : Nat := ((loadHeaders image).map ProgramHeader.vaddr).min?.getD 0

/-- The distance that the image is moved by. -/
def ElfLoaded.bias (image : Bytes) (loaded : ElfLoaded) : Nat := sub64 loaded.imageBase (lowestVaddr image)

theorem imageRange_fst (headers : List ProgramHeader) (range : Nat × Nat) :
    (headers.foldl (fun range header =>
      (if header.vaddr < range.1 then header.vaddr else range.1,
        if range.2 < add64 header.vaddr header.memsz then add64 header.vaddr header.memsz else range.2)) range).1 =
      (headers.map ProgramHeader.vaddr).foldl min range.1 := by
  induction headers generalizing range with
  | nil => rfl
  | cons header headers ih =>
    rw [foldl_cons, ih, map_cons, foldl_cons]
    congr 1
    split <;> omega

theorem vaddr_lt {header : ProgramHeader} (mem : header ∈ programHeaders image) : header.vaddr < 2 ^ 64 := by
  obtain ⟨i, _, rfl⟩ := mem_map.mp mem
  exact load_lt image _ 8

theorem imageRange_low (some_ : loadHeaders image ≠ []) : (imageRange (loadHeaders image)).1 = lowestVaddr image := by
  unfold imageRange lowestVaddr
  rw [imageRange_fst]
  cases headers : loadHeaders image with
  | nil => exact absurd headers some_
  | cons header rest =>
    have lt := vaddr_lt (mem_loadHeaders (headers ▸ .head _) : header ∈ programHeaders image ∧ _).1
    rw [map_cons, foldl_cons, min?_cons', Option.getD_some, Nat.min_eq_right (by omega)]

theorem relocateAddress_eq {orig targetBase elfBase : Nat} (originalSmall : orig < 2 ^ 64)
    (elfSmall : elfBase < 2 ^ 64) :
    relocateAddress orig targetBase elfBase = add64 orig (sub64 targetBase elfBase) := by
  unfold relocateAddress add64 sub64
  split <;> omega

end

section

variable {image : Bytes} {cursor pml4 entry fuel : Nat} {memory : PageMemory} {place : ImagePlace}

/-- The segments lie in the user half, and what they take from the file ends before `2 ^ 64`. -/
structure Loadable (image : Bytes) (place : ImagePlace) : Prop where
  user : ∀ header ∈ loadHeaders image, header.InUserHalf place
  sized : ∀ header ∈ loadHeaders image, header.filesz ≤ header.memsz
  inFile : ∀ header ∈ loadHeaders image, header.offset + header.filesz ≤ 2 ^ 64

/-- What the file says is in memory, and what was taken for it can be reached. -/
structure LoadsFile (image : Bytes) (start : PageMemory) (pml4 entry : Nat) (loaded : ElfLoaded) : Prop where
  bytes : ∀ header ∈ loadHeaders image, ∀ k < header.memsz,
    userByte loaded.memory pml4 (add64 header.vaddr (loaded.bias image) + k) =
      some (if k < header.filesz then image (header.offset + k) else 0)
  fixed : (elfHeader image).type ≠ etDyn → loaded.bias image = 0
  entry : entry = add64 (elfHeader image).entry (loaded.bias image)
  kept : AllReached start loaded.memory pml4

theorem fresh_shows (used : memory.InUse pml4) (empty : ∀ i, i < 256 → present (memory.words pml4 i) = false) :
    Shows memory memory pml4 fun _ => none := by
  have lost : ∀ path, UserPath path → path.length = 4 → memory.walk pml4 path = none := by
    intro path user leaf
    exact walk_empty empty user (ne_nil_of_length_pos (by omega))
  constructor
  · exact pageTree_empty used (fun no => no) empty fun frame no => no.elim
  · exact fun addr used => used
  · grind
  · exact fun addr user _ => lost _ user.path rfl
  · exact fun addr bytes user no => nomatch no

theorem acceptedHeaders_eq (loadable : Loadable image place) : acceptedHeaders place (loadHeaders image) = loadHeaders image := by
  apply takeWhile_eq_self_iff.mpr
  intro header mem
  have user := loadable.user header mem
  have page := vaddrPage_eq user
  unfold ProgramHeader.InUserHalf at user
  simp only [ProgramHeader.refused, page, kernelHalf, Bool.not_eq_true', decide_eq_false_iff_not]
  omega

theorem loadELF64_ok (ok : (loadELF64 fuel image cursor pml4 memory).result = some (.ok entry)) :
    loadHeaders image ≠ [] ∧ (loadSegments image (imagePlace image cursor) pml4 (loadHeaders image) memory).error = none ∧
      loadELF64 fuel image cursor pml4 memory =
        let place := imagePlace image cursor
        let segments := loadSegments image place pml4 (loadHeaders image) memory
        let relocated := relocateImage fuel image place pml4 segments.memory
        ⟨some (.ok (relocateAddress (elfHeader image).entry place.targetBase place.elfBase)), place.targetBase,
          add64 place.targetBase place.span, place.cursor, relocated.2.1,
          (checkMagic image 0 elfMagic).2 ++ scanEvents image ++ [.read 16 2] ++ segments.events ++ relocated.2.2 ++
            [.read 24 8]⟩ := by
  unfold loadELF64 at ok ⊢
  dsimp only at ok ⊢
  split at ok
  next => exact nomatch ok
  next good =>
    rw [if_neg good]
    split at ok
    next => exact nomatch ok
    next some_ =>
      rw [if_neg some_]
      cases stopped : (loadSegments image (imagePlace image cursor) pml4 (loadHeaders image) memory).error with
      | some error =>
        rw [stopped] at ok
        exact nomatch ok
      | none =>
        rw [stopped] at ok
        refine ⟨fun empty => some_ (List.isEmpty_iff.mpr empty), rfl, ?_⟩
        cases answer : (relocateImage fuel image (imagePlace image cursor) pml4
            (loadSegments image (imagePlace image cursor) pml4 (loadHeaders image) memory).memory).1 with
        | none =>
          rw [answer] at ok
          exact nomatch ok
        | some good =>
          rw [answer] at ok
          cases good with
          | false => exact nomatch ok
          | true => rfl

theorem elfBase_eq (some_ : loadHeaders image ≠ []) : (imagePlace image cursor).elfBase = lowestVaddr image := by
  rw [← imageRange_low some_]
  unfold imagePlace
  split <;> rfl

theorem lowestVaddr_lt (some_ : loadHeaders image ≠ []) : lowestVaddr image < 2 ^ 64 := by
  unfold lowestVaddr
  cases low : ((loadHeaders image).map ProgramHeader.vaddr).min? with
  | none => exact absurd (map_eq_nil_iff.mp (min?_eq_none_iff.mp low)) some_
  | some vaddr =>
    obtain ⟨header, mem, rfl⟩ := mem_map.mp (min?_mem low)
    exact vaddr_lt (mem_loadHeaders mem).1

theorem targetBase_fixed (fixed : (elfHeader image).type ≠ etDyn) :
    (imagePlace image cursor).targetBase = (imagePlace image cursor).elfBase := by
  unfold imagePlace
  rw [if_neg fixed]

theorem moved_eq (some_ : loadHeaders image ≠ []) {orig : Nat} (lt : orig < 2 ^ 64) :
    relocateAddress orig (imagePlace image cursor).targetBase (imagePlace image cursor).elfBase =
      add64 orig (sub64 (imagePlace image cursor).targetBase (lowestVaddr image)) := by
  rw [relocateAddress_eq lt (by rw [elfBase_eq some_]; exact lowestVaddr_lt some_), elfBase_eq some_]

theorem userPages (loadable : Loadable image place) {page : SegmentPage}
    (mem : page ∈ pagesToLoad place (loadHeaders image)) : UserPage page.current := by
  unfold pagesToLoad at mem
  rw [acceptedHeaders_eq loadable] at mem
  obtain ⟨header, hin, mem⟩ := mem_flatMap.mp mem
  exact userPage_page (loadable.user header hin) mem

theorem segment_shown {start after : PageMemory} (loadable : Loadable image place)
    (shows : Shows start after pml4 (placeAll image place (pagesToLoad place (loadHeaders image)) fun _ => none))
    (nodup : ((pagesToLoad place (loadHeaders image)).map SegmentPage.current).Nodup) {header : ProgramHeader}
    (mem : header ∈ loadHeaders image) {k : Nat} (hin : k < header.memsz) :
    userByte after pml4 (header.relocatedVaddr place + k) = some (if k < header.filesz then image (header.offset + k) else 0) := by
  have user := loadable.user header mem
  obtain ⟨page, onPage, eq, cur⟩ := exists_page user hin
  have listed : page ∈ pagesToLoad place (loadHeaders image) := by
    unfold pagesToLoad
    rw [acceptedHeaders_eq loadable]
    exact mem_flatMap.mpr ⟨header, mem, onPage⟩
  have shown := @placeAll_mem image place page _ (fun _ => none) nodup listed
  rw [cur, eq] at shown
  have lt : header.relocatedVaddr place + k < 2 ^ 47 := by
    unfold ProgramHeader.InUserHalf at user
    omega
  rw [userByte_shown shows lt shown]
  exact congrArg some (pageBytes_eq user (loadable.sized header mem) (loadable.inFile header mem) hin)

variable (used : memory.InUse pml4) (empty : ∀ i, i < 256 → present (memory.words pml4 i) = false)
    (loadable : Loadable image (imagePlace image cursor))
    (ok : (loadELF64 fuel image cursor pml4 memory).result = some (.ok entry))
    (still : ∀ event ∈ (loadELF64 fuel image cursor pml4 memory).events, event.writes = false)

include used empty loadable ok still

theorem load_pages : Shows memory (loadELF64 fuel image cursor pml4 memory).memory pml4 (placeAll image (imagePlace image cursor)
        (pagesToLoad (imagePlace image cursor) (loadHeaders image)) fun _ => none) ∧
      (AllReached memory (loadELF64 fuel image cursor pml4 memory).memory pml4 ↔
        ((pagesToLoad (imagePlace image cursor) (loadHeaders image)).map SegmentPage.current).Nodup) := by
  obtain ⟨some_, loaded, whole⟩ := loadELF64_ok ok
  rw [whole] at still ⊢
  have quiet := relocateImage_still fun event mem =>
    still event (mem_append_left _ (mem_append_right _ mem))
  have flat := @loadSegments_loadedAs image (imagePlace image cursor) pml4 (loadHeaders image) memory
  have pagesLoaded : (loadPages image (imagePlace image cursor) pml4
      (pagesToLoad (imagePlace image cursor) (loadHeaders image)) memory).error = none := by
    have stops := flat.stops
    rw [loaded] at stops
    exact (Option.or_eq_none_iff.mp stops.symm).1
  have user : ∀ page ∈ pagesToLoad (imagePlace image cursor) (loadHeaders image), UserPage page.current :=
    fun page mem => userPages loadable mem
  have fresh := fresh_shows used empty
  have shows := loadPages_shows user fresh pagesLoaded
  have kept := loadPages_allReached user fresh (fun frame used => .inl used) pagesLoaded
  rw [← flat.leaves, ← quiet] at shows kept
  exact ⟨shows, kept.trans ⟨fun ne => ne.2, fun nodup => ⟨fun _ _ => rfl, nodup⟩⟩⟩

/-- The file is loaded exactly when no page belongs to two segments. -/
theorem load_loadsFile_iff : LoadsFile image memory pml4 entry (loadELF64 fuel image cursor pml4 memory) ↔
      ((pagesToLoad (imagePlace image cursor) (loadHeaders image)).map SegmentPage.current).Nodup := by
  obtain ⟨shows, kept⟩ := load_pages used empty loadable ok still
  constructor
  · exact fun loads => kept.mp loads.kept
  intro nodup
  obtain ⟨some_, _, whole⟩ := loadELF64_ok ok
  have moved : (loadELF64 fuel image cursor pml4 memory).bias image =
      sub64 (imagePlace image cursor).targetBase (lowestVaddr image) := by
    rw [whole]
    rfl
  constructor
  · intro header mem k hin
    rw [moved, ← moved_eq some_ (vaddr_lt (mem_loadHeaders mem).1)]
    exact segment_shown loadable shows nodup mem hin
  · intro fixed
    rw [moved, targetBase_fixed fixed, elfBase_eq some_, sub64_eq (Nat.le_refl _) (lowestVaddr_lt some_), Nat.sub_self]
  · rw [whole] at ok
    rw [moved, ← Except.ok.inj (Option.some.inj ok)]
    exact moved_eq some_ (load_lt image 24 8)
  · exact kept.mpr nodup

end

theorem emptySpace_empty : emptySpace.InUse physBase ∧ ∀ i, i < 256 → present (emptySpace.words physBase i) = false := by
  constructor
  · exact ⟨0, by decide, by decide, by decide +kernel⟩
  · decide +kernel

theorem oneSegmentFile_loadable : Loadable oneSegmentFile (imagePlace oneSegmentFile userPieBase) := by
  constructor
  · unfold ProgramHeader.InUserHalf
    decide +kernel
  · decide +kernel
  · decide +kernel

theorem one_segment_loads :
    LoadsFile oneSegmentFile emptySpace physBase 0x400000 (loadELF64 1 oneSegmentFile userPieBase physBase emptySpace) :=
  (load_loadsFile_iff emptySpace_empty.1 emptySpace_empty.2 oneSegmentFile_loadable (by decide +kernel)
    (by decide +kernel)).mpr (by decide +kernel)

def sharedPageFile : Bytes := fixedFile [segmentBytes 0 0x400000 176, segmentBytes 0 0x400800 8]

theorem sharedPageFile_loadable : Loadable sharedPageFile (imagePlace sharedPageFile userPieBase) := by
  constructor
  · unfold ProgramHeader.InUserHalf
    decide +kernel
  · decide +kernel
  · decide +kernel

theorem shared_page_loses : Loadable sharedPageFile (imagePlace sharedPageFile userPieBase) ∧
    (loadHeaders sharedPageFile).Pairwise (fun first second => first.vaddr + first.memsz ≤ second.vaddr) ∧
    (loadELF64 1 sharedPageFile userPieBase physBase emptySpace).result = some (.ok 0x400000) ∧
    (∀ event ∈ (loadELF64 1 sharedPageFile userPieBase physBase emptySpace).events, event.writes = false) ∧
    ¬LoadsFile sharedPageFile emptySpace physBase 0x400000 (loadELF64 1 sharedPageFile userPieBase physBase emptySpace) := by
  have ok : (loadELF64 1 sharedPageFile userPieBase physBase emptySpace).result = some (.ok 0x400000) := by decide +kernel
  have still : ∀ event ∈ (loadELF64 1 sharedPageFile userPieBase physBase emptySpace).events, event.writes = false := by
    decide +kernel
  refine ⟨sharedPageFile_loadable, by decide +kernel, ok, still, fun loads => ?_⟩
  have kept := (load_pages emptySpace_empty.1 emptySpace_empty.2 sharedPageFile_loadable ok still).2
  exact absurd (kept.mp loads.kept) (by decide +kernel)

end RosKernel.Process
