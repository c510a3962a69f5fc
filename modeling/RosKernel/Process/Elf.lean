import RosKernel.Memory.MapTables
import RosKernel.Memory.PhysBytes

/-! The ELF loader, `misc/file/extension/elf.cpp`.

The image is what lies at each distance from its pointer, in memory that the load does not write. A frame is read and
written through the direct map, where the frame after it lies behind it. `cursor` is `G_UserPieCursor`. Both pointers are not null.
What a load does is kept as a history: `pos` in it is a distance from the image's pointer, and what is read again is not repeated.
-/

set_option autoImplicit false

namespace RosKernel.Process

open Library Memory

structure ElfHeader where
  type : Nat
  entry : Nat
  phoff : Nat
  phnum : Nat

/-- A program header, and where it lies in the image. -/
structure ProgramHeader where
  pos : Nat
  type : Nat
  flags : Nat
  offset : Nat
  vaddr : Nat
  filesz : Nat
  memsz : Nat

def ptLoad : Nat := 1

def ptDynamic : Nat := 2

def etDyn : Nat := 3

def userPieBase : Nat := 0x400000

def userPieGuard : Nat := 0x200000

/-- The first page that a program may not map, and `HHDM_BASE`. -/
def kernelHalf : Nat := 0xFFFF800000000000

inductive ElfError where
  | badMagic | unsupported | noMem | mapFail
  deriving DecidableEq

inductive ElfEvent where
  /-- Bytes of the image are read. -/
  | read (pos len : Nat)
  /-- A call of `MapPages` for one page, and whether it succeeded. -/
  | mapPages (virtAddr frame : Nat) (ok : Bool)
  /-- Eight bytes are written for a relocation. -/
  | relocated (virtAddr physAddr : Nat)
  deriving DecidableEq

/-- The comparisons with the magic number from byte `pos` on; the first that fails is the last. -/
def checkMagic (image : Bytes) : Nat → List UInt8 → Bool × List ElfEvent
  | _, [] => (true, [])
  | pos, byte :: bytes =>
    if image pos ≠ byte then (false, [.read pos 1])
    else
      let rest := checkMagic image (pos + 1) bytes
      (rest.1, .read pos 1 :: rest.2)

def elfMagic : List UInt8 := [0x7F, 0x45, 0x4C, 0x46]

def elfHeader (image : Bytes) : ElfHeader := ⟨load image 16 2, load image 24 8, load image 32 8, load image 56 2⟩

def programHeader (image : Bytes) (phoff i : Nat) : ProgramHeader :=
  let start := add64 phoff (56 * i)
  ⟨start, load image start 4, load image (add64 start 4) 4, load image (add64 start 8) 8, load image (add64 start 16) 8,
    load image (add64 start 32) 8, load image (add64 start 40) 8⟩

def programHeaders (image : Bytes) : List ProgramHeader :=
  (List.range (elfHeader image).phnum).map (programHeader image (elfHeader image).phoff)

namespace ProgramHeader

variable (header : ProgramHeader)

/-- A field at this distance from the header's start. -/
def field (start len : Nat) : ElfEvent := .read (add64 header.pos start) len

/-- What the first loop reads of a header. -/
def scanReads : List ElfEvent :=
  header.field 0 4 :: if header.type = ptLoad then [header.field 16 8, header.field 40 8] else []

end ProgramHeader

def loadHeaders (image : Bytes) : List ProgramHeader := (programHeaders image).filter fun header => header.type == ptLoad

def imageRange (headers : List ProgramHeader) : Nat × Nat :=
  headers.foldl (fun range header =>
    (if header.vaddr < range.1 then header.vaddr else range.1,
      if range.2 < add64 header.vaddr header.memsz then add64 header.vaddr header.memsz else range.2)) (2 ^ 64 - 1, 0)

/-- The base that is reserved, and the cursor afterwards. -/
def reserveDynamicImageBase (cursor spanBytes : Nat) : Nat × Nat :=
  let spanBytes := pageAlign (if spanBytes = 0 then pageSize else spanBytes)
  let base := pageAlign cursor
  (base, pageAlign (add64 (add64 base spanBytes) userPieGuard))

def relocateAddress (original targetBase elfBase : Nat) : Nat :=
  if targetBase = elfBase then original else add64 targetBase (sub64 original elfBase)

/-- Where the image goes. -/
structure ImagePlace where
  targetBase : Nat
  elfBase : Nat
  span : Nat
  cursor : Nat

def imagePlace (image : Bytes) (cursor : Nat) : ImagePlace :=
  let range := imageRange (loadHeaders image)
  let span := pageAlign (if range.1 < range.2 then range.2 - range.1 else pageSize)
  if (elfHeader image).type = etDyn then
    let reserved := reserveDynamicImageBase cursor span
    ⟨reserved.1, range.1, span, reserved.2⟩
  else ⟨range.1, range.1, span, cursor⟩

namespace ProgramHeader

variable (place : ImagePlace) (header : ProgramHeader)

def relocatedVaddr : Nat := relocateAddress header.vaddr place.targetBase place.elfBase

def vaddrPage : Nat := pageMask (header.relocatedVaddr place)

def sizePage : Nat := sub64 (pageAlign (add64 (header.relocatedVaddr place) header.memsz)) (header.vaddrPage place)

/-- The check of the first page. -/
def refused : Bool := kernelHalf ≤ header.vaddrPage place

def copyStart (current : Nat) : Nat :=
  if header.relocatedVaddr place < current then current else header.relocatedVaddr place

def copyEnd (current : Nat) : Nat :=
  let segmentEnd := add64 (header.relocatedVaddr place) header.filesz
  if add64 current pageSize < segmentEnd then add64 current pageSize else segmentEnd

def srcOffset (current : Nat) : Nat :=
  add64 header.offset (sub64 (header.copyStart place current) (header.relocatedVaddr place))

/-- The page at `current` before it is mapped: zeros, and the part of the file that falls into it. -/
def pageBytes (image : Bytes) (current : Nat) : Bytes := fun pos =>
  let copyStart := header.copyStart place current
  let copyEnd := header.copyEnd place current
  if copyStart < copyEnd ∧ copyStart - current ≤ pos ∧ pos < copyEnd - current then
    image (add64 (header.srcOffset place current) (pos - (copyStart - current)))
  else 0

/-- What is read for a page: the part of the file that is copied, and the flags. -/
def pageReads (current : Nat) : List ElfEvent :=
  (if header.copyStart place current < header.copyEnd place current then
    [.read (header.srcOffset place current) (header.copyEnd place current - header.copyStart place current)] else []) ++
    [header.field 4 4]

def segmentReads : List ElfEvent := [header.field 16 8, header.field 40 8, header.field 32 8, header.field 8 8]

def pageFlags : Nat :=
  (pagePresent ||| pageUser ||| if header.flags &&& 2 ≠ 0 then pageRW else 0) ||| if header.flags &&& 1 = 0 then pageNX else 0

end ProgramHeader

/-- A part of the load, with its error if it fails. -/
structure Loading where
  error : Option ElfError
  memory : PageMemory
  events : List ElfEvent

/-- `Memset` and `Memcpy` of a whole page. -/
def fillPage (memory : PageMemory) (frame : Nat) (bytes : Bytes) : PageMemory := { memory with
  words := Function.update memory.words frame fun i => load bytes (8 * i) 8 }

section

variable (image : Bytes) (place : ImagePlace) (pml4 : Nat)

def loadPage (header : ProgramHeader) (current : Nat) (memory : PageMemory) : Loading :=
  let (frame, memory) := memory.allocPage
  if frame = 0 then ⟨some .noMem, memory, []⟩
  else
    match (fillPage memory frame (header.pageBytes place image current)).mapPages pml4 frame current 1 header.pageFlags with
    | (true, memory) => ⟨none, memory, header.pageReads place current ++ [.mapPages current frame true]⟩
    | (false, memory) =>
      ⟨some .mapFail, memory.free frame, header.pageReads place current ++ [.mapPages current frame false]⟩

/-- Pages of a segment from page `i` on. -/
def loadPagesFrom (header : ProgramHeader) : Nat → Nat → PageMemory → Loading
  | _, 0, memory => ⟨none, memory, []⟩
  | i, count + 1, memory =>
    let page := loadPage image place pml4 header (add64 (header.vaddrPage place) (mul64 i pageSize)) memory
    match page.error with
    | some error => ⟨some error, page.memory, page.events⟩
    | none =>
      let rest := loadPagesFrom header (i + 1) count page.memory
      ⟨rest.error, rest.memory, page.events ++ rest.events⟩

def loadSegments : List ProgramHeader → PageMemory → Loading
  | [], memory => ⟨none, memory, []⟩
  | header :: headers, memory =>
    if header.refused place then ⟨some .unsupported, memory, header.segmentReads⟩
    else
      let segment := loadPagesFrom image place pml4 header 0 (header.sizePage place / pageSize) memory
      match segment.error with
      | some error => ⟨some error, segment.memory, header.segmentReads ++ segment.events⟩
      | none =>
        let rest := loadSegments headers segment.memory
        ⟨rest.error, rest.memory, header.segmentReads ++ segment.events ++ rest.events⟩

end

section

variable (memory : PageMemory)

/-- The walk of the loader, which does not follow large pages. -/
def translateUserPage (pml4 virtAddr : Nat) : Option Nat :=
  let pml4e := memory.words pml4 (tableIndex 3 virtAddr)
  if !present pml4e then none
  else
    let pdpte := memory.words (entryAddr pml4e) (tableIndex 2 virtAddr)
    if !present pdpte || huge pdpte then none
    else
      let pde := memory.words (entryAddr pdpte) (tableIndex 1 virtAddr)
      if !present pde || huge pde then none
      else
        let pte := memory.words (entryAddr pde) (tableIndex 0 virtAddr)
        if !present pte then none else some (entryAddr pte)

end

/-- A page and the frame that it was last found at. -/
structure CachedUserPage where
  pageBase : Nat
  frame : Nat

/-- The second half of a load; the read cache and the write cache are pages that were looked up before. -/
structure Relocator where
  memory : PageMemory
  readCache : Option CachedUserPage
  writeCache : Option CachedUserPage

def lookUpPage (memory : PageMemory) (pml4 pageBase : Nat) : Option CachedUserPage :=
  (translateUserPage memory pml4 pageBase).map (CachedUserPage.mk pageBase)

def ensureCachedPage (memory : PageMemory) (pml4 virtAddr : Nat) (cache : Option CachedUserPage) : Option CachedUserPage :=
  match cache with
  | some page => if page.pageBase = pageMask virtAddr then some page else lookUpPage memory pml4 (pageMask virtAddr)
  | none => lookUpPage memory pml4 (pageMask virtAddr)

namespace Relocator

variable (pml4 : Nat) (place : ImagePlace)

def readUser64 (reloc : Relocator) (virtAddr : Nat) : Option (Nat × Relocator) :=
  (ensureCachedPage reloc.memory pml4 virtAddr reloc.readCache).map fun page =>
    (wordValue (reloc.memory.readBytes (page.frame + sub64 virtAddr page.pageBase) 8), { reloc with readCache := some page })

/-- The physical address that is written, and what is left. -/
def writeUser64 (reloc : Relocator) (virtAddr value : Nat) : Option (Nat × Relocator) :=
  (ensureCachedPage reloc.memory pml4 virtAddr reloc.writeCache).map fun page =>
    let physAddr := page.frame + sub64 virtAddr page.pageBase
    (physAddr,
      { memory := reloc.memory.writeBytes physAddr (wordBytes value)
        writeCache := some page
        readCache := match reloc.readCache with
          | some read => if read.pageBase = page.pageBase then some page else some read
          | none => none })

structure RelaTable where
  addr : Nat
  size : Nat
  ent : Nat

/-- What the loop over the dynamic section comes to. -/
inductive DynamicScan where
  | done (table : RelaTable) (reloc : Relocator)
  | unreadable
  /-- The rounds that were allowed are used up. -/
  | endless

/-- The entries of the dynamic section from `offset` on. The loop has no end of its own when the size is within
an entry of `2 ^ 64`; `fuel` bounds its rounds. -/
def readDynamic (dynBase dynSize : Nat) : Nat → Nat → RelaTable → Relocator → DynamicScan
  | 0, _, _, _ => .endless
  | fuel + 1, offset, table, reloc =>
    if add64 offset 16 ≤ dynSize then
      match reloc.readUser64 pml4 (add64 dynBase offset) with
      | none => .unreadable
      | some (tag, reloc) =>
        match reloc.readUser64 pml4 (add64 (add64 dynBase offset) 8) with
        | none => .unreadable
        | some (value, reloc) =>
          if tag = 0 then .done table reloc
          else
            let table :=
              if tag = 7 then { table with addr := relocateAddress value place.targetBase place.elfBase }
              else if tag = 8 then { table with size := value }
              else if tag = 9 then { table with ent := if value = 0 then 24 else value }
              else table
            readDynamic dynBase dynSize fuel (add64 offset 16) table reloc
    else .done table reloc

structure RelaEntry where
  offset : Nat
  info : Nat
  addend : Nat

def readRela (reloc : Relocator) (entryVA : Nat) : Option (RelaEntry × Relocator) :=
  (reloc.readUser64 pml4 entryVA).bind fun (offset, reloc) =>
    (reloc.readUser64 pml4 (add64 entryVA 8)).bind fun (info, reloc) =>
      (reloc.readUser64 pml4 (add64 entryVA 16)).map fun (addend, reloc) => (⟨offset, info, addend⟩, reloc)

/-- `R_X86_64_RELATIVE` and `R_X86_64_64`. -/
def RelaEntry.handled (entry : RelaEntry) : Bool := entry.info % 2 ^ 32 == 8 || entry.info % 2 ^ 32 == 1

def RelaEntry.target (entry : RelaEntry) : Nat := relocateAddress entry.offset place.targetBase place.elfBase

/-- Relocations from entry `i` on. -/
def applyRelocations (table : RelaTable) : Nat → Nat → Relocator → Bool × Relocator × List ElfEvent
  | _, 0, reloc => (true, reloc, [])
  | i, count + 1, reloc =>
    match reloc.readRela pml4 (add64 table.addr (mul64 i table.ent)) with
    | none => (false, reloc, [])
    | some (entry, reloc) =>
      if entry.handled then
        match reloc.writeUser64 pml4 (entry.target place) (add64 place.targetBase entry.addend) with
        | none => (false, reloc, [])
        | some (physAddr, reloc) =>
          let rest := applyRelocations table (i + 1) count reloc
          (rest.1, rest.2.1, .relocated (entry.target place) physAddr :: rest.2.2)
      else applyRelocations table (i + 1) count reloc

def findTable (fuel : Nat) (header : ProgramHeader) (reloc : Relocator) : DynamicScan :=
  readDynamic pml4 place (relocateAddress header.vaddr place.targetBase place.elfBase) header.filesz fuel 0 ⟨0, 0, 24⟩ reloc

/-- The answer is `none` if the call does not return. -/
def processDynamicSection (fuel : Nat) (header : ProgramHeader) (reloc : Relocator) :
    Option Bool × Relocator × List ElfEvent :=
  match findTable pml4 place fuel header reloc with
  | .endless => (none, reloc, [])
  | .unreadable => (some false, reloc, [])
  | .done table reloc =>
    if table.addr = 0 ∨ table.size = 0 ∨ table.ent = 0 then (some true, reloc, [])
    else
      let applied := applyRelocations pml4 place table 0 (table.size / table.ent) reloc
      (some applied.1, applied.2)

end Relocator

def dynamicHeader (image : Bytes) : Option ProgramHeader := (programHeaders image).find? fun header => header.type == ptDynamic

/-- What `LoadELF64` returns, and the cursor and the memory that it leaves. Without a result it does not return. -/
structure ElfLoaded where
  result : Option (Except ElfError Nat)
  imageBase : Nat
  imageEnd : Nat
  cursor : Nat
  memory : PageMemory
  events : List ElfEvent

/-- The call of `ProcessDynamicSection`, without which the load succeeds. -/
def relocateImage (fuel : Nat) (image : Bytes) (place : ImagePlace) (pml4 : Nat) (memory : PageMemory) :
    Option Bool × PageMemory × List ElfEvent :=
  match dynamicHeader image with
  | none => (some true, memory, [])
  | some header =>
    let (answer, reloc, events) := Relocator.processDynamicSection pml4 place fuel header ⟨memory, none, none⟩
    (answer, reloc.memory, [header.field 16 8, header.field 32 8] ++ events)

/-- What is read before the segments. -/
def scanEvents (image : Bytes) : List ElfEvent :=
  [.read 32 8, .read 56 2] ++ (programHeaders image).flatMap ProgramHeader.scanReads

def loadELF64 (fuel : Nat) (image : Bytes) (cursor pml4 : Nat) (memory : PageMemory) : ElfLoaded :=
  let (good, magicReads) := checkMagic image 0 elfMagic
  if !good then ⟨some (.error .badMagic), 0, 0, cursor, memory, magicReads⟩
  else
    let seen := magicReads ++ scanEvents image
    if (loadHeaders image).isEmpty then ⟨some (.error .unsupported), 0, 0, cursor, memory, seen⟩
    else
      let place := imagePlace image cursor
      let segments := loadSegments image place pml4 (loadHeaders image) memory
      let seen := seen ++ [.read 16 2] ++ segments.events
      match segments.error with
      | some error => ⟨some (.error error), 0, 0, place.cursor, segments.memory, seen⟩
      | none =>
        let (answer, memory, events) := relocateImage fuel image place pml4 segments.memory
        match answer with
        | none => ⟨none, 0, 0, place.cursor, memory, seen ++ events⟩
        | some false => ⟨some (.error .unsupported), 0, 0, place.cursor, memory, seen ++ events⟩
        | some true =>
          ⟨some (.ok (relocateAddress (elfHeader image).entry place.targetBase place.elfBase)), place.targetBase,
            add64 place.targetBase place.span, place.cursor, memory, seen ++ events ++ [.read 24 8]⟩

section

variable {pml4 : Nat} {place : ImagePlace} {reloc reloc' : Relocator}

theorem readUser64_memory {virtAddr value : Nat}
    (read : reloc.readUser64 pml4 virtAddr = some (value, reloc')) : reloc'.memory = reloc.memory := by
  obtain ⟨page, _, eq⟩ := Option.map_eq_some_iff.mp read
  rw [← (Prod.mk.inj eq).2]

theorem readRela_memory {entryVA : Nat} {entry : Relocator.RelaEntry}
    (read : reloc.readRela pml4 entryVA = some (entry, reloc')) : reloc'.memory = reloc.memory := by
  obtain ⟨⟨_, one⟩, first, read⟩ := Option.bind_eq_some_iff.mp read
  obtain ⟨⟨_, two⟩, snd, read⟩ := Option.bind_eq_some_iff.mp read
  obtain ⟨⟨_, three⟩, third, eq⟩ := Option.map_eq_some_iff.mp read
  rw [← (Prod.mk.inj eq).2, readUser64_memory third, readUser64_memory snd, readUser64_memory first]

theorem readDynamic_memory {dynBase dynSize fuel off : Nat} {table table' : Relocator.RelaTable}
    (read : Relocator.readDynamic pml4 place dynBase dynSize fuel off table reloc = .done table' reloc') :
    reloc'.memory = reloc.memory := by
  induction fuel generalizing off table reloc with
  | zero => exact nomatch read
  | succ fuel ih =>
    rw [Relocator.readDynamic] at read
    split at read
    case isFalse =>
      cases read
      rfl
    case isTrue =>
      cases first : reloc.readUser64 pml4 (add64 dynBase off) with
      | none =>
        rw [first] at read
        exact nomatch read
      | some hf =>
        obtain ⟨tag, one⟩ := hf
        rw [first] at read
        dsimp only at read
        cases snd : one.readUser64 pml4 (add64 (add64 dynBase off) 8) with
        | none =>
          rw [snd] at read
          exact nomatch read
        | some hf =>
          obtain ⟨value, two⟩ := hf
          rw [snd] at read
          dsimp only at read
          have eq : two.memory = reloc.memory := (readUser64_memory snd).trans (readUser64_memory first)
          split at read
          · cases read
            exact eq
          · exact (ih read).trans eq

end

end RosKernel.Process
