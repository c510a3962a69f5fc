import RosKernel.Process.Elf

/-! The pages of an image, one after another.

The loader goes through the segments, and through the pages of each. Its work is that of one loop over all of these
pages, up to the first segment that is refused.
-/

set_option autoImplicit false

namespace RosKernel.Process

open Library Memory List

section

variable (image : Bytes) (place : ImagePlace) (pml4 : Nat)

/-- A page of a segment, by its address. -/
structure SegmentPage where
  header : ProgramHeader
  current : Nat

def ProgramHeader.page (header : ProgramHeader) (i : Nat) : SegmentPage :=
  ⟨header, add64 (header.vaddrPage place) (mul64 i pageSize)⟩

def ProgramHeader.pages (header : ProgramHeader) : List SegmentPage :=
  (range' 0 (header.sizePage place / pageSize)).map (header.page place)

/-- The segments before the first that is refused. -/
def acceptedHeaders (headers : List ProgramHeader) : List ProgramHeader := headers.takeWhile fun header => !header.refused place

def pagesToLoad (headers : List ProgramHeader) : List SegmentPage :=
  (acceptedHeaders place headers).flatMap (ProgramHeader.pages place)

def loadPages : List SegmentPage → PageMemory → Loading
  | [], memory => ⟨none, memory, []⟩
  | page :: pages, memory =>
    let loaded := loadPage image place pml4 page.header page.current memory
    match loaded.error with
    | some error => ⟨some error, loaded.memory, loaded.events⟩
    | none =>
      let rest := loadPages pages loaded.memory
      ⟨rest.error, rest.memory, loaded.events ++ rest.events⟩

variable {image place pml4} {memory : PageMemory} {header : ProgramHeader} {headers : List ProgramHeader}

theorem loadPages_append (first snd : List SegmentPage) (memory : PageMemory) :
    loadPages image place pml4 (first ++ snd) memory =
      match (loadPages image place pml4 first memory).error with
      | some _ => loadPages image place pml4 first memory
      | none =>
        let rest := loadPages image place pml4 snd (loadPages image place pml4 first memory).memory
        ⟨rest.error, rest.memory, (loadPages image place pml4 first memory).events ++ rest.events⟩ := by
  induction first generalizing memory with
  | nil => rfl
  | cons page pages ih =>
    rw [cons_append, loadPages, loadPages]
    cases stopped : (loadPage image place pml4 page.header page.current memory).error with
    | some error => rfl
    | none =>
      dsimp only
      rw [ih]
      cases rest : (loadPages image place pml4 pages (loadPage image place pml4 page.header page.current memory).memory).error with
      | some error => rw [rest]
      | none => simp only [append_assoc]

theorem loadPagesFrom_eq (i count : Nat) (memory : PageMemory) :
    loadPagesFrom image place pml4 header i count memory =
      loadPages image place pml4 ((range' i count).map (header.page place)) memory := by
  induction count generalizing i memory with
  | zero => rfl
  | succ count ih =>
    rw [loadPagesFrom, List.range'_succ, map_cons, loadPages]
    dsimp only [ProgramHeader.page]
    cases (loadPage image place pml4 header (add64 (header.vaddrPage place) (mul64 i pageSize)) memory).error with
    | some error => rfl
    | none =>
      rw [ih]

/-- A segment is refused, and with it what comes after. -/
def refusal (place : ImagePlace) (headers : List ProgramHeader) : Option ElfError :=
  if headers.any (ProgramHeader.refused place) then some .unsupported else none

/-- What the loop over segments comes to, by the loop over pages. -/
structure LoadedAs (image : Bytes) (place : ImagePlace) (pml4 : Nat) (headers : List ProgramHeader) (memory : PageMemory)
    (loaded : Loading) : Prop where
  stops : loaded.error = (loadPages image place pml4 (pagesToLoad place headers) memory).error.or (refusal place headers)
  leaves : loaded.memory = (loadPages image place pml4 (pagesToLoad place headers) memory).memory
  events : ∀ event ∈ loaded.events, event ∈ (loadPages image place pml4 (pagesToLoad place headers) memory).events ∨
    ∃ header ∈ headers, event ∈ header.segmentReads
  pages : ∀ event ∈ (loadPages image place pml4 (pagesToLoad place headers) memory).events, event ∈ loaded.events

theorem loadSegments_loadedAs (headers : List ProgramHeader) (memory : PageMemory) :
    LoadedAs image place pml4 headers memory (loadSegments image place pml4 headers memory) := by
  induction headers generalizing memory with
  | nil => exact ⟨rfl, rfl, fun event mem => (nomatch mem), fun event mem => (nomatch mem)⟩
  | cons header headers ih =>
    rw [loadSegments]
    by_cases no : header.refused place = true
    · rw [if_pos no]
      have none_ : pagesToLoad place (header :: headers) = [] := by
        simp [pagesToLoad, acceptedHeaders, no]
      constructor
      · simp [none_, loadPages, refusal, no]
      · rw [none_]
        rfl
      · grind
      · rw [none_]
        exact fun event mem => nomatch mem
    · rw [if_neg no]
      have split : pagesToLoad place (header :: headers) = header.pages place ++ pagesToLoad place headers := by
        simp [pagesToLoad, acceptedHeaders, no]
      have later : refusal place (header :: headers) = refusal place headers := by
        simp [refusal, no]
      dsimp only
      rw [loadPagesFrom_eq, ← ProgramHeader.pages]
      have whole := @loadPages_append image place pml4 (header.pages place) (pagesToLoad place headers) memory
      rw [← split] at whole
      cases stopped : (loadPages image place pml4 (header.pages place) memory).error with
      | some error =>
        rw [stopped] at whole
        constructor
        · rw [whole, stopped]
          rfl
        · rw [whole]
        · intro event mem
          rw [whole]
          cases mem_append.mp mem with
          | inl read => exact .inr ⟨header, .head _, read⟩
          | inr page => exact .inl page
        · grind
      | none =>
        rw [stopped] at whole
        have rest := ih (loadPages image place pml4 (header.pages place) memory).memory
        constructor
        · rw [whole, later]
          exact rest.stops
        · rw [whole]
          exact rest.leaves
        · intro event mem
          rw [whole, mem_append]
          rcases mem_append.mp mem with early | late
          · cases mem_append.mp early with
            | inl read => exact .inr ⟨header, .head _, read⟩
            | inr page => exact .inl (.inl page)
          · cases rest.events event late with
            | inl page => exact .inl (.inr page)
            | inr read =>
              obtain ⟨other, hin, read⟩ := read
              exact .inr ⟨other, .tail _ hin, read⟩
        · intro event mem
          rw [whole] at mem
          cases mem_append.mp mem with
          | inl page => exact mem_append_left _ (mem_append_right _ page)
          | inr page => exact mem_append_right _ (rest.pages event page)

end

end RosKernel.Process
