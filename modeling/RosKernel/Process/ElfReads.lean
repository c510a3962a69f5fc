import RosKernel.Memory.MapRuns
import RosKernel.Process.ElfPages

/-! What the ELF loader reads of the buffer that it is given.

The loader does not know how long the buffer is. What lies behind the buffer is read when a header or a segment is said to
be there.
-/

set_option autoImplicit false

namespace RosKernel.Process

open Library Memory List

/-- A read stays inside a buffer of this size. -/
def ElfEvent.Inside (size : Nat) : ElfEvent → Prop
  | .read pos len => pos + len ≤ size
  | _ => True

section

variable (image : Bytes) (place : ImagePlace) (pml4 : Nat)

/-- The pages that get a frame, up to the first that cannot be mapped. -/
def reachedPages : List SegmentPage → PageMemory → List SegmentPage
  | [], _ => []
  | page :: pages, memory =>
    let loaded := loadPage image place pml4 page.header page.current memory
    match loaded.error with
    | some .noMem => []
    | some _ => [page]
    | none => page :: reachedPages pages loaded.memory

/-- What a page takes from the file lies in the file. -/
def SegmentPage.CopyInside (size : Nat) (page : SegmentPage) : Prop :=
  page.header.copyStart place page.current < page.header.copyEnd place page.current →
    page.header.srcOffset place page.current +
      (page.header.copyEnd place page.current - page.header.copyStart place page.current) ≤ size

def goodMagic : Bool := (checkMagic image 0 elfMagic).1

/-- The bytes of the magic number that are compared, the headers, and what is copied lie in the file. -/
structure ReadsFit (cursor : Nat) (memory : PageMemory) (size : Nat) : Prop where
  magic : ∀ j, ∀ inside : j < elfMagic.length, (∀ i, ∀ before : i < j, image i = elfMagic[i]) → j < size
  header : goodMagic image = true → 58 ≤ size
  headers : goodMagic image = true → ∀ header ∈ programHeaders image,
    header.pos + 4 ≤ size ∧ (header.type = ptLoad → header.pos + 48 ≤ size)
  copies : goodMagic image = true → ∀ page ∈ reachedPages image (imagePlace image cursor) pml4
    (pagesToLoad (imagePlace image cursor) (loadHeaders image)) memory, page.CopyInside (imagePlace image cursor) size
  dynamic : goodMagic image = true → loadHeaders image ≠ [] →
    (loadSegments image (imagePlace image cursor) pml4 (loadHeaders image) memory).error = none →
    ∀ header, dynamicHeader image = some header → header.pos + 40 ≤ size

end

section

variable {image : Bytes} {place : ImagePlace} {pml4 size : Nat} {memory : PageMemory} {header : ProgramHeader}

/-- All reads among the events stay inside. -/
def AllInside (size : Nat) (events : List ElfEvent) : Prop := ∀ event ∈ events, event.Inside size

theorem allInside_append (first snd : List ElfEvent) :
    AllInside size (first ++ snd) ↔ AllInside size first ∧ AllInside size snd := forall_mem_append

theorem allInside_cons (event : ElfEvent) (events : List ElfEvent) :
    AllInside size (event :: events) ↔ event.Inside size ∧ AllInside size events := forall_mem_cons

theorem allInside_nil : AllInside size [] := fun _ mem => nomatch mem

theorem checkMagic_inside (pos : Nat) (bytes : List UInt8) : AllInside size (checkMagic image pos bytes).2 ↔
    ∀ j, ∀ hin : j < bytes.length, (∀ i, ∀ pre : i < j, image (pos + i) = bytes[i]) → pos + j < size := by
  induction bytes generalizing pos with
  | nil => exact iff_of_true allInside_nil fun j absent => absurd absent (Nat.not_lt_zero j)
  | cons byte bytes ih =>
    rw [checkMagic]
    have first : (∀ j, ∀ hin : j < (byte :: bytes).length, (∀ i, ∀ pre : i < j, image (pos + i) = (byte :: bytes)[i]) →
        pos + j < size) → pos < size := by
      intro all
      exact all 0 (Nat.zero_lt_succ _) fun i absent => absurd absent (Nat.not_lt_zero i)
    by_cases eq : image pos = byte
    · rw [if_neg (not_not_intro eq)]
      rw [allInside_cons, ih]
      constructor
      · intro ⟨h, rest⟩ j hin equal
        cases j with
        | zero => exact h
        | succ j =>
          have later := rest j (Nat.lt_of_succ_lt_succ hin) fun i pre => by
            have there := equal (i + 1) (Nat.succ_lt_succ pre)
            rwa [show pos + (i + 1) = pos + 1 + i by omega] at there
          omega
      · intro all
        refine ⟨first all, fun j hin equal => ?_⟩
        have later := all (j + 1) (Nat.succ_lt_succ hin) fun i pre => by
          cases i with
          | zero => exact eq
          | succ i =>
            rw [show pos + (i + 1) = pos + 1 + i by omega]
            exact equal i (Nat.lt_of_succ_lt_succ pre)
        omega
    · rw [if_pos eq, allInside_cons]
      constructor
      · intro ⟨h, _⟩ j _ equal
        cases j with
        | zero => exact h
        | succ j => exact absurd (equal 0 (Nat.zero_lt_succ j)) eq
      · exact fun all => ⟨first all, allInside_nil⟩

theorem pos_lt (mem : header ∈ programHeaders image) : header.pos < 2 ^ 64 := by
  obtain ⟨i, _, rfl⟩ := mem_map.mp mem
  exact add64_lt _ _

theorem field_inside (fits : size ≤ 2 ^ 47) (lt : header.pos + 4 ≤ size) {start len : Nat} (short : start ≤ 56) :
    (header.field start len).Inside size ↔ header.pos + start + len ≤ size := by
  unfold ProgramHeader.field ElfEvent.Inside
  rw [add64_eq (by omega)]

theorem scanReads_inside (fits : size ≤ 2 ^ 47) (mem : header ∈ programHeaders image) :
    AllInside size header.scanReads ↔ header.pos + 4 ≤ size ∧ (header.type = ptLoad → header.pos + 48 ≤ size) := by
  have bound := pos_lt mem
  have type : (header.field 0 4).Inside size ↔ header.pos + 4 ≤ size := by
    unfold ProgramHeader.field ElfEvent.Inside
    rw [add64_eq (by omega), Nat.add_zero]
  unfold ProgramHeader.scanReads
  rw [allInside_cons, type]
  apply and_congr_right
  intro lt
  by_cases loads : header.type = ptLoad
  · rw [if_pos loads, forall_prop_of_true loads, allInside_cons, allInside_cons, field_inside fits lt (by decide),
      field_inside fits lt (by decide), and_iff_left allInside_nil]
    omega
  · rw [if_neg loads]
    exact iff_of_true allInside_nil fun wrong => absurd wrong loads

/-- Nothing is read for a page without a frame. -/
theorem loadPage_events (page : SegmentPage) (memory : PageMemory) :
    ((loadPage image place pml4 page.header page.current memory).error = some .noMem ∧
        (loadPage image place pml4 page.header page.current memory).events = []) ∨
      (loadPage image place pml4 page.header page.current memory).error ≠ some .noMem ∧
        ∃ frame ok, (loadPage image place pml4 page.header page.current memory).events =
          page.header.pageReads place page.current ++ [.mapPages page.current frame ok] := by
  unfold loadPage
  dsimp only
  split
  · exact .inl ⟨rfl, rfl⟩
  · split
    all_goals exact .inr ⟨fun no => (nomatch no), _, _, rfl⟩

theorem loadPages_inside (pages : List SegmentPage) (memory : PageMemory) :
    AllInside size (loadPages image place pml4 pages memory).events ↔
      ∀ page ∈ reachedPages image place pml4 pages memory, AllInside size (page.header.pageReads place page.current) := by
  induction pages generalizing memory with
  | nil => exact iff_of_true allInside_nil fun page mem => nomatch mem
  | cons page pages ih =>
    rw [loadPages, reachedPages]
    rcases @loadPage_events image place pml4 page memory with ⟨stopped, events⟩ | ⟨goes, frame, ok, events⟩
    · rw [stopped, events]
      exact iff_of_true allInside_nil fun page mem => by cases mem
    · have h : AllInside size (page.header.pageReads place page.current ++ [.mapPages page.current frame ok]) ↔
          AllInside size (page.header.pageReads place page.current) := by
        rw [allInside_append, allInside_cons]
        exact and_iff_left ⟨trivial, allInside_nil⟩
      rw [events]
      cases stopped : (loadPage image place pml4 page.header page.current memory).error with
      | none =>
        rw [allInside_append, h, ih, forall_mem_cons]
      | some error =>
        rw [stopped] at goes
        cases error with
        | noMem => exact absurd rfl goes
        | badMagic => simpa using h
        | unsupported => simpa using h
        | mapFail => simpa using h

theorem mem_of_reached {page : SegmentPage} {pages : List SegmentPage}
    (hr : page ∈ reachedPages image place pml4 pages memory) : page ∈ pages := by
  induction pages generalizing memory with
  | nil => exact nomatch hr
  | cons first pages ih =>
    rw [reachedPages] at hr
    split at hr
    · exact nomatch hr
    · rw [mem_singleton.mp hr]
      exact .head _
    · cases mem_cons.mp hr with
      | inl h => exact h ▸ .head _
      | inr later => exact .tail _ (ih later)

theorem header_of_page {page : SegmentPage} {headers : List ProgramHeader} (mem : page ∈ pagesToLoad place headers) :
    page.header ∈ headers := by
  obtain ⟨header, accepted, hin⟩ := mem_flatMap.mp mem
  obtain ⟨i, _, rfl⟩ := mem_map.mp hin
  exact (takeWhile_sublist _).subset accepted

theorem loadSegments_inside (fits : size ≤ 2 ^ 47) (headers : List ProgramHeader)
    (whole : ∀ header ∈ headers, header.pos + 48 ≤ size) (memory : PageMemory) :
    AllInside size (loadSegments image place pml4 headers memory).events ↔
      ∀ page ∈ reachedPages image place pml4 (pagesToLoad place headers) memory, page.CopyInside place size := by
  have loaded := @loadSegments_loadedAs image place pml4 headers memory
  have fields : ∀ header ∈ headers, ∀ start len, start + len ≤ 48 → start ≤ 40 → (header.field start len).Inside size := by
    intro header mem start len short low
    have room := whole header mem
    rw [field_inside fits (by omega) (by omega)]
    omega
  have flat : AllInside size (loadSegments image place pml4 headers memory).events ↔
      AllInside size (loadPages image place pml4 (pagesToLoad place headers) memory).events := by
    constructor
    · exact fun all event mem => all event (loaded.pages event mem)
    · intro all event mem
      cases loaded.events event mem with
      | inl page => exact all event page
      | inr read =>
        obtain ⟨header, hin, read⟩ := read
        simp only [ProgramHeader.segmentReads, mem_cons, not_mem_nil, or_false] at read
        rcases read with rfl | rfl | rfl | rfl <;> exact fields header hin _ _ (by decide) (by decide)
  rw [flat, loadPages_inside]
  apply forall₂_congr
  intro page hr
  have hin := header_of_page (mem_of_reached hr)
  unfold ProgramHeader.pageReads SegmentPage.CopyInside
  rw [allInside_append, allInside_cons]
  by_cases copies : page.header.copyStart place page.current < page.header.copyEnd place page.current
  · rw [if_pos copies, forall_prop_of_true copies, allInside_cons]
    constructor
    · exact fun all => all.1.1
    · exact fun copy => ⟨⟨copy, allInside_nil⟩, fields _ hin 4 4 (by decide) (by decide), allInside_nil⟩
  · rw [if_neg copies]
    exact iff_of_true ⟨allInside_nil, fields _ hin 4 4 (by decide) (by decide), allInside_nil⟩ fun wrong => absurd wrong copies

theorem applyRelocations_reads (table : Relocator.RelaTable) (i count : Nat) (reloc : Relocator) :
    AllInside size (Relocator.applyRelocations pml4 place table i count reloc).2.2 := by
  induction count generalizing i reloc with
  | zero => exact allInside_nil
  | succ count ih =>
    rw [Relocator.applyRelocations]
    split
    · exact allInside_nil
    · split
      · split
        · exact allInside_nil
        · exact (allInside_cons _ _).mpr ⟨trivial, ih _ _⟩
      · exact ih _ _

theorem relocateImage_inside (fits : size ≤ 2 ^ 47) (fuel : Nat)
    (types : ∀ header ∈ programHeaders image, header.pos + 4 ≤ size) :
    AllInside size (relocateImage fuel image place pml4 memory).2.2 ↔
      ∀ header, dynamicHeader image = some header → header.pos + 40 ≤ size := by
  unfold relocateImage
  cases hf : dynamicHeader image with
  | none => exact iff_of_true allInside_nil fun header no => nomatch no
  | some header =>
    have lt := types header (mem_of_find?_eq_some hf)
    have quiet : AllInside size (Relocator.processDynamicSection pml4 place fuel header ⟨memory, none, none⟩).2.2 := by
      unfold Relocator.processDynamicSection
      split
      · exact allInside_nil
      · exact allInside_nil
      · split
        · exact allInside_nil
        · exact applyRelocations_reads _ _ _ _
    rw [allInside_append, and_iff_left quiet, allInside_cons, allInside_cons, field_inside fits lt (by decide),
      field_inside fits lt (by decide), and_iff_left allInside_nil]
    constructor
    · intro both other eq
      cases eq
      omega
    · intro all
      have room := all header rfl
      omega

end

section

variable {image : Bytes} {pml4 size cursor fuel : Nat} {memory : PageMemory}

theorem scanEvents_inside (fits : size ≤ 2 ^ 47) : AllInside size (scanEvents image) ↔ 58 ≤ size ∧
    ∀ header ∈ programHeaders image, header.pos + 4 ≤ size ∧ (header.type = ptLoad → header.pos + 48 ≤ size) := by
  unfold scanEvents
  rw [allInside_append, allInside_cons, allInside_cons, and_iff_left allInside_nil]
  apply and_congr
  · simp only [ElfEvent.Inside]
    omega
  · unfold AllInside
    simp only [mem_flatMap]
    constructor
    · intro all header mem
      exact (scanReads_inside fits mem).mp fun event hin => all event ⟨header, mem, hin⟩
    · rintro all event ⟨header, mem, hin⟩
      exact (scanReads_inside fits mem).mpr (all header mem) event hin

theorem mem_loadHeaders {header : ProgramHeader} (mem : header ∈ loadHeaders image) :
    header ∈ programHeaders image ∧ header.type = ptLoad := by
  obtain ⟨hin, type⟩ := mem_filter.mp mem
  exact ⟨hin, beq_iff_eq.mp type⟩

theorem readsFit_iff (good : goodMagic image = true) : ReadsFit image pml4 cursor memory size ↔
    (AllInside size (checkMagic image 0 elfMagic).2 ∧ 58 ≤ size ∧
      ∀ header ∈ programHeaders image, header.pos + 4 ≤ size ∧ (header.type = ptLoad → header.pos + 48 ≤ size)) ∧
    (∀ page ∈ reachedPages image (imagePlace image cursor) pml4
      (pagesToLoad (imagePlace image cursor) (loadHeaders image)) memory, page.CopyInside (imagePlace image cursor) size) ∧
    (loadHeaders image ≠ [] → (loadSegments image (imagePlace image cursor) pml4 (loadHeaders image) memory).error = none →
      ∀ header, dynamicHeader image = some header → header.pos + 40 ≤ size) := by
  rw [checkMagic_inside]
  simp only [Nat.zero_add]
  constructor
  · exact fun fit => ⟨⟨fit.magic, fit.header good, fit.headers good⟩, fit.copies good, fit.dynamic good⟩
  · exact fun ⟨⟨magic, header, headers⟩, copies, dynamic⟩ =>
      ⟨magic, fun _ => header, fun _ => headers, fun _ => copies, fun _ => dynamic⟩

/-- Every byte that the loader reads lies in the file exactly when the reads fit. The buffer lies in the kernel's half of
the addresses, and is not larger than that. -/
theorem load_reads_inside_iff (fits : size ≤ 2 ^ 47) :
    (∀ event ∈ (loadELF64 fuel image cursor pml4 memory).events, event.Inside size) ↔
      ReadsFit image pml4 cursor memory size := by
  change AllInside size _ ↔ _
  unfold loadELF64
  cases good : goodMagic image with
  | false =>
    have bad : (checkMagic image 0 elfMagic).1 = false := good
    dsimp only
    rw [bad, if_pos (by decide), checkMagic_inside]
    simp only [Nat.zero_add]
    constructor
    · intro magic
      constructor
      · exact magic
      all_goals exact fun wrong => absurd (wrong.symm.trans good) (by decide)
    · exact fun fit => fit.magic
  | true =>
    have fine : (checkMagic image 0 elfMagic).1 = true := good
    dsimp only
    rw [fine, if_neg (by decide), readsFit_iff good, ← scanEvents_inside fits, ← allInside_append]
    by_cases empty : loadHeaders image = []
    · rw [if_pos (by rw [empty]; rfl), empty]
      apply (and_iff_left _).symm
      exact ⟨fun page mem => (nomatch mem), fun wrong => absurd rfl wrong⟩
    · have some_ : ¬(loadHeaders image).isEmpty = true := by rwa [List.isEmpty_iff]
      rw [if_neg some_, forall_prop_of_true empty]
      generalize placed : imagePlace image cursor = place
      generalize ended : loadSegments image place pml4 (loadHeaders image) memory = segments
      by_cases seen : AllInside size ((checkMagic image 0 elfMagic).2 ++ scanEvents image)
      · obtain ⟨room, headers⟩ := (scanEvents_inside fits).mp ((allInside_append _ _).mp seen).2
        have whole : ∀ header ∈ loadHeaders image, header.pos + 48 ≤ size := by
          intro header mem
          exact (headers header (mem_loadHeaders mem).1).2 (mem_loadHeaders mem).2
        have type : AllInside size [.read 16 2] := (allInside_cons _ _).mpr ⟨show 16 + 2 ≤ size by omega, allInside_nil⟩
        have entry : AllInside size [.read 24 8] := (allInside_cons _ _).mpr ⟨show 24 + 8 ≤ size by omega, allInside_nil⟩
        have copies := @loadSegments_inside image place pml4 size fits _ whole memory
        have dynamic := @relocateImage_inside image place pml4 size segments.memory fits fuel
          fun header mem => (headers header mem).1
        rw [ended] at copies
        rw [and_iff_right seen]
        generalize (checkMagic image 0 elfMagic).2 ++ scanEvents image = first at seen
        have early : AllInside size (first ++ [.read 16 2]) := (allInside_append _ _).mpr ⟨seen, type⟩
        cases stops : segments.error with
        | some error =>
          rw [allInside_append, and_iff_right early, copies]
          exact (and_iff_left fun wrong => nomatch wrong).symm
        | none =>
          rw [forall_prop_of_true rfl, ← dynamic]
          cases (relocateImage fuel image place pml4 segments.memory).1 with
          | none =>
            rw [allInside_append, allInside_append, and_iff_right early, copies]
          | some answer =>
            cases answer with
            | false =>
              rw [allInside_append, allInside_append, and_iff_right early, copies]
            | true =>
              rw [allInside_append, and_iff_left entry, allInside_append, allInside_append, and_iff_right early, copies]
      · apply iff_of_false _ fun both => seen both.1
        generalize (checkMagic image 0 elfMagic).2 ++ scanEvents image = first at seen
        -- whatever comes after, these reads are among the events
        intro all
        apply seen
        intro event mem
        apply all event
        cases segments.error with
        | some error => exact mem_append_left _ (mem_append_left _ mem)
        | none =>
          have early := mem_append_left (relocateImage fuel image place pml4 segments.memory).2.2
            (mem_append_left segments.events (mem_append_left [.read 16 2] mem))
          cases (relocateImage fuel image place pml4 segments.memory).1 with
          | none => exact early
          | some answer =>
            cases answer with
            | false => exact early
            | true => exact mem_append_left _ early

end

def segmentBytes (offset vaddr size : Nat) : List UInt8 :=
  wordBytes 1 ++ wordBytes offset ++ wordBytes vaddr ++ wordBytes vaddr ++ wordBytes size ++ wordBytes size ++ wordBytes 0x1000

/-- A file that is loaded at its own addresses. -/
def fixedFile (segments : List (List UInt8)) : Bytes := fun pos =>
  (elfMagic ++ replicate 12 0 ++ wordBytes 2 ++ wordBytes 0x400000 ++ wordBytes 64 ++ replicate 16 0 ++
    wordBytes segments.length ++ segments.flatten).getD pos 0

def emptySpace : PageMemory := blankMemory.allocPage.2

def oneSegmentFile : Bytes := fixedFile [segmentBytes 0 0x400000 120]

theorem oneSegmentFile_fits : ReadsFit oneSegmentFile physBase userPieBase emptySpace 120 := by
  have plain : (dynamicHeader oneSegmentFile).isNone = true := by decide +kernel
  constructor
  · intro j hin equal
    exact Nat.lt_trans hin (by decide)
  · exact fun good => by decide
  · exact fun good => by decide +kernel
  · unfold SegmentPage.CopyInside
    exact fun good => by decide +kernel
  · grind

/-- One page gets a frame, and all of the file is copied there. -/
theorem one_segment_reads_inside :
    (.read 0 120) ∈ (loadELF64 4 oneSegmentFile userPieBase physBase emptySpace).events ∧
      AllInside 120 (loadELF64 4 oneSegmentFile userPieBase physBase emptySpace).events :=
  ⟨by decide +kernel, (load_reads_inside_iff (by decide)).mpr oneSegmentFile_fits⟩

/-- A file that ends behind the magic number. -/
def magicFile : Bytes := fun pos => elfMagic.getD pos 0

theorem magic_file_reads_outside :
    ∃ event ∈ (loadELF64 4 magicFile userPieBase 0x1000 blankMemory).events, ¬event.Inside 4 := by
  refine ⟨.read 32 8, ?_, by simp [ElfEvent.Inside]⟩
  decide +kernel

end RosKernel.Process
