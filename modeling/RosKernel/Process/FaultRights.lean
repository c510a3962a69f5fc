import RosKernel.Memory.MapWords
import RosKernel.Memory.PhysBytes
import RosKernel.Process.DeepCopy
import RosKernel.Process.Residency

/-! What a page fault installs, next to what `mprotect` would.

Pages are mapped without the bit that forbids execution, so only areas that may be executed get the entry that
`UpdatePageTableProt` computes.
-/

set_option autoImplicit false

namespace RosKernel.Process

open Library Memory Option

/-- What `VFSManager::Read` answers, and what the page holds then. -/
structure FileRead where
  count : Nat
  buffer : Bytes

/-- The page once the rest is cleared; an answer of a page or more clears nothing. -/
def FileRead.byte (read : FileRead) (k : Nat) : UInt8 := if read.count < pageSize ∧ read.count ≤ k then 0 else read.buffer k

def FileRead.content (read : FileRead) (i : Nat) : Nat := load read.byte (8 * i) 8

structure UserFault where
  tables : Descriptors
  cr3 : Nat
  vmas : List VMArea
  memory : PageMemory
  faultAddr : Nat
  errorCode : Nat
  read : FileRead

/-- The rights of an entry are those of a protection, and so are all of its flags. -/
structure Grants (entry prot : Nat) : Prop where
  read : present entry = true → prot &&& 7 ≠ 0
  write : entry &&& pageRW ≠ 0 → prot &&& 2 ≠ 0
  execute : entry &&& pageNX = 0 → prot &&& 4 ≠ 0
  flags : flagBits entry = PageMemory.protFlags prot

/-- What belongs at `k` of a page: the file's byte, and zero past its end or without a file. -/
def areaByte (contents : FileId → List UInt8) (area : VMArea) (page k : Nat) : UInt8 :=
  match area.backingFile with
  | none => 0
  | some id => (contents id).getD (area.fileOffset + (page - area.start) + k) 0

namespace UserFault

variable (fault : UserFault)

def page : Nat := pageMask fault.faultAddr

def handle : Option (Bool × PageMemory) :=
  handleUserPageFault fault.tables fault.cr3 fault.vmas fault.memory fault.faultAddr fault.errorCode fault.read.content

def area : Option VMArea := (findAt fault.faultAddr fault.vmas).map fun found => found.2.1

def oldPhys : Nat := fault.memory.getPhysicalAddress fault.cr3 fault.page

/-- The page is there, and only its rights are set again. -/
def Updates : Prop := fault.errorCode &&& 1 ≠ 0 ∧ fault.oldPhys ≠ 0

/-- The page gets a frame of its own. -/
def NewPage (area : VMArea) : Prop := ¬fault.Updates ∧ faultTarget fault.tables area fault.page = some none

/-- What a fault may do: if it is resolved, the entry has the rights of the area, and a new page its bytes; if not,
addresses translate as before, and the same frames are in use. -/
def Right (contents : FileId → List UInt8) (ok : Bool) (memory' : PageMemory) : Prop :=
  if ok then ∃ area ∈ fault.vmas, fault.area = some area ∧ area.Has fault.faultAddr ∧
    ∀ entry, memory'.pageAt fault.cr3 (pathOf fault.page) = some entry → Grants entry area.prot ∧
      (fault.NewPage area → ∀ k < pageSize, memory'.byteAt (entryAddr entry + k) = areaByte contents area fault.page k)
  else
    (∀ virtAddr, memory'.getPhysicalAddress fault.cr3 virtAddr = fault.memory.getPhysicalAddress fault.cr3 virtAddr) ∧
      ∀ frame, memory'.InUse frame ↔ fault.memory.InUse frame

/-- If the page is mapped, all is `good`; if not, no table was added on the way. -/
def MapFits (memory : PageMemory) (physAddr : Nat) (area : VMArea) (good : Prop) : Prop :=
  if (memory.mapPages fault.cr3 physAddr fault.page 1 (mapFlags area)).1 then good
  else memory.wayTo fault.cr3 fault.page = .missing → memory.allocPage.1 = 0

/-- The file has a file system, and the read delivers the page. -/
def Delivers (contents : FileId → List UInt8) (area : VMArea) : Prop :=
  match area.backingFile with
  | none => True
  | some id => (fault.tables.files id).hasOwner = true ∧ ∀ k < pageSize, fault.read.byte k = areaByte contents area fault.page k

/-- The fault is refused; or what gets mapped may be executed, is aligned and is delivered. -/
def Fits (contents : FileId → List UInt8) : Prop :=
  ∀ area, fault.area = some area → ¬(fault.errorCode &&& 2 ≠ 0 ∧ area.prot &&& 2 = 0) →
    (fault.Updates → (fault.memory.mapPages fault.cr3 fault.oldPhys fault.page 1 (mapFlags area)).1 = true →
      area.prot &&& 4 ≠ 0) ∧
    (¬fault.Updates →
      (∀ physAddr, faultTarget fault.tables area fault.page = some (some physAddr) →
        fault.MapFits fault.memory physAddr area (flagBits (physAddr ||| mapFlags area) = PageMemory.protFlags area.prot)) ∧
      (faultTarget fault.tables area fault.page = some none → fault.memory.allocPage.1 ≠ 0 →
        fault.MapFits fault.memory.allocPage.2 fault.memory.allocPage.1 area
          (area.prot &&& 4 ≠ 0 ∧ fault.Delivers contents area)))

end UserFault

section

theorem grants_iff {entry prot : Nat} : Grants entry prot ↔ flagBits entry = PageMemory.protFlags prot := by
  constructor
  · exact fun grants => grants.flags
  · intro eq
    have bit : ∀ mask, flagBits mask = mask → entry &&& mask = PageMemory.protFlags prot &&& mask := by
      intro mask hin
      rw [← eq]
      conv_lhs => rw [← hin]
      unfold flagBits
      rw [Nat.and_assoc, Nat.and_comm mask]
    constructor
    · rw [← present_flagBits, eq]
      unfold PageMemory.protFlags
      split_ifs <;> simp_all <;> decide
    · rw [bit pageRW (by decide)]
      unfold PageMemory.protFlags
      split_ifs <;> simp_all <;> decide
    · rw [bit pageNX (by decide)]
      unfold PageMemory.protFlags
      split_ifs <;> simp_all <;> decide
    · exact eq

theorem mapFlags_eq_iff (area : VMArea) : mapFlags area = PageMemory.protFlags area.prot ↔ area.prot &&& 4 ≠ 0 := by
  have some_ : area.prot &&& 7 = 0 → area.prot &&& 4 = 0 := by
    intro none_
    rw [show 4 = 7 &&& 4 by decide, ← Nat.and_assoc, none_]
    rfl
  unfold mapFlags PageMemory.protFlags
  split_ifs <;> simp_all <;> decide

theorem flagBits_mapped {phys : Nat} (mappable : Mappable phys) (area : VMArea) :
    flagBits (phys ||| mapFlags area) = mapFlags area := by
  have flags : flagBits (mapFlags area) = mapFlags area := by
    unfold mapFlags
    split_ifs <;> decide
  have entry := (cloned_entry mappable (mapFlags area)).2.2
  rwa [flags] at entry

theorem present_mapped (phys : Nat) (area : VMArea) : present (phys ||| mapFlags area) = true := by
  unfold Memory.present
  rw [Nat.and_or_distrib_right]
  have own : mapFlags area &&& pagePresent = 1 := by
    unfold mapFlags
    split_ifs <;> decide
  rw [own, bne_iff_ne]
  intro zero
  exact nomatch (Nat.or_eq_zero_iff.mp zero).2

end

section

variable {memory memory' : PageMemory} {cr3 physAddr page : Nat} {area : VMArea} {ok : Bool}

section

variable (tree : TableTree memory cr3) (physSmall : physAddr < 2 ^ 64) (pageSmall : page < 2 ^ 64)
include tree physSmall pageSmall

theorem mapPages_area (mapped : memory.mapPages cr3 physAddr page 1 (mapFlags area) = (true, memory')) :
    memory'.pageAt cr3 (pathOf page) = some (physAddr ||| mapFlags area) ∧ Grows memory memory' cr3 ∧
      memory.mapPage cr3 physAddr page (mapFlags area) = (true, memory') := by
  rw [mapPages_one physSmall pageSmall] at mapped
  have maps : Memory.Maps memory memory' cr3 (pathOf page) (physAddr ||| mapFlags area) := (tree.mapPage mapped).1
  refine ⟨?_, maps.toGrows, mapped⟩
  rw [maps.pages _ (indices_pathOf page), if_pos rfl, leafPage, if_pos (present_mapped physAddr area)]

theorem mapPages_refused (mapped : memory.mapPages cr3 physAddr page 1 (mapFlags area) = (false, memory')) :
    memory'.pageAt cr3 (pathOf page) = none ∧
      (∀ virtAddr, memory'.getPhysicalAddress cr3 virtAddr = memory.getPhysicalAddress cr3 virtAddr) ∧
      ((memory.wayTo cr3 page = .missing → memory.allocPage.1 = 0) → memory'.frames = memory.frames) ∧
      (¬(memory.wayTo cr3 page = .missing → memory.allocPage.1 = 0) → ∃ frame, ¬memory.InUse frame ∧ memory'.InUse frame) := by
  rw [mapPages_one physSmall pageSmall] at mapped
  obtain ⟨extend, outcome⟩ := tree.mapPage mapped
  have pages : Extends memory memory' cr3 := extend
  refine ⟨?_, fun virtAddr => ?_, ?_⟩
  · rw [pages.pages _ (indices_pathOf page)]
    apply pageAt_lost
    rw [show ([tableIndex 1 page, tableIndex 2 page, tableIndex 3 page] : List Nat) = (pathOf page).tail from rfl,
      tableAt_wayTo]
    revert outcome
    cases memory.wayTo cr3 page with
    | clear _ => exact fun outcome => nomatch outcome.1
    | large _ => exact fun _ => rfl
    | missing => exact fun _ => rfl
  · rw [getPhysicalAddress_eq, getPhysicalAddress_eq]
    apply resolve_congr
    intro path inside
    unfold PageMemory.frameAt
    rw [pages.pages path inside]
  · revert outcome
    cases memory.wayTo cr3 page with
    | clear _ => exact fun outcome => nomatch outcome.1
    | large _ => exact fun outcome => ⟨fun _ => outcome.2, fun wrong => absurd (fun missing => nomatch missing) wrong⟩
    | missing =>
      change (if _ then _ else _) → _
      split
      case isTrue none_ => exact fun outcome => ⟨fun _ => outcome.2, fun wrong => absurd (fun _ => none_) wrong⟩
      case isFalse some_ => exact fun outcome => ⟨fun no => absurd (no rfl) some_, fun _ => outcome⟩

end

end

namespace UserFault

variable {fault : UserFault} {contents : FileId → List UInt8} {ok : Bool} {memory' : PageMemory} {area : VMArea}

theorem right_unchanged : fault.Right contents false fault.memory := by
  unfold Right
  rw [if_neg Bool.false_ne_true]
  exact ⟨fun _ => rfl, fun _ => .rfl⟩

theorem area_eq_some (hf : fault.area = some area) : area ∈ fault.vmas ∧ area.Has fault.faultAddr := by
  obtain ⟨⟨pre, _, after⟩, there, rfl⟩ := Option.map_eq_some_iff.mp hf
  obtain ⟨split, has⟩ := findAt_some there
  exact ⟨split ▸ List.mem_append_right _ (.head _), has⟩

theorem right_mapped {entry : Nat} (hf : fault.area = some area)
    (mapped : memory'.pageAt fault.cr3 (pathOf fault.page) = some entry) : fault.Right contents true memory' ↔
      flagBits entry = PageMemory.protFlags area.prot ∧
        (fault.NewPage area → ∀ k < pageSize, memory'.byteAt (entryAddr entry + k) = areaByte contents area fault.page k) := by
  unfold Right
  rw [if_pos rfl]
  constructor
  · intro ⟨other, _, eq, _, right⟩
    obtain rfl := some.inj (hf.symm.trans eq)
    exact ⟨(right entry mapped).1.flags, (right entry mapped).2⟩
  · intro ⟨flags, bytes⟩
    refine ⟨area, (area_eq_some hf).1, hf, (area_eq_some hf).2, fun other there => ?_⟩
    obtain rfl := some.inj (mapped.symm.trans there)
    exact ⟨grants_iff.mpr flags, bytes⟩

theorem right_unmapped (hf : fault.area = some area) (unmapped : memory'.pageAt fault.cr3 (pathOf fault.page) = none) :
    fault.Right contents true memory' := by
  unfold Right
  rw [if_pos rfl]
  refine ⟨area, (area_eq_some hf).1, hf, (area_eq_some hf).2, fun entry there => ?_⟩
  exact nomatch unmapped.symm.trans there

theorem page_eq (fault : UserFault) : fault.page = fault.faultAddr / 2 ^ 12 % 2 ^ 52 * 2 ^ 12 := and_bitRange fault.faultAddr 12 52

theorem page_lt (fault : UserFault) : fault.page < 2 ^ 64 := by
  rw [page_eq]
  omega

theorem page_aligned (fault : UserFault) : fault.page % pageSize = 0 := by
  rw [page_eq, pageSize]
  omega

theorem right_device {physAddr : Nat} (tree : TableTree fault.memory fault.cr3) (physSmall : physAddr < 2 ^ 64)
    (hf : fault.area = some area) (old : ¬fault.NewPage area)
    (mapped : fault.memory.mapPages fault.cr3 physAddr fault.page 1 (mapFlags area) = (ok, memory')) :
    fault.Right contents ok memory' ↔
      fault.MapFits fault.memory physAddr area (flagBits (physAddr ||| mapFlags area) = PageMemory.protFlags area.prot) := by
  unfold MapFits
  rw [mapped]
  cases ok with
  | true =>
    rw [right_mapped hf (mapPages_area tree physSmall fault.page_lt mapped).1, if_pos rfl, and_iff_left]
    exact fun new => absurd new old
  | false =>
    obtain ⟨_, addresses, kept, added⟩ := mapPages_refused tree physSmall fault.page_lt mapped
    unfold Right
    rw [if_neg Bool.false_ne_true, if_neg Bool.false_ne_true]
    constructor
    · grind
    · intro fits
      exact ⟨addresses, inUse_congr (kept fits)⟩

theorem way_missing {memory : PageMemory} {pml4 virtAddr : Nat} (miss : memory.wayTo pml4 virtAddr = .missing) :
    memory.getPhysicalAddress pml4 virtAddr = 0 := by
  unfold PageMemory.wayTo at miss
  simp only [PageMemory.way] at miss
  unfold PageMemory.getPhysicalAddress
  grind

theorem oldPhys_lt (fault : UserFault) : fault.oldPhys < 2 ^ 64 := by
  unfold oldPhys PageMemory.getPhysicalAddress
  grind [add64_lt]

theorem oldPhys_cases (small : ∀ level, fault.memory.wayTo fault.cr3 fault.page ≠ .large level) :
    fault.oldPhys = 0 ∨ ∃ entry, fault.memory.pageAt fault.cr3 (pathOf fault.page) = some entry ∧
      fault.oldPhys = entryAddr entry := by
  have reached := tableAt_wayTo fault.memory fault.cr3 fault.page
  cases way : fault.memory.wayTo fault.cr3 fault.page with
  | large level => exact absurd way (small level)
  | missing => exact .inl (way_missing way)
  | clear last =>
    rw [way] at reached
    unfold oldPhys
    rw [getPhysicalAddress_last reached, fault.page_aligned, PageMemory.frameAt]
    cases fault.memory.pageAt fault.cr3 (pathOf fault.page) with
    | none => exact .inl rfl
    | some entry =>
      have bound := (entryAddr_mappable entry).small
      exact .inr ⟨entry, rfl, add64_eq (by omega)⟩

theorem way_words {memory memory' : PageMemory} (eq : memory'.words = memory.words) (table : Nat) (path : List Nat) :
    memory'.way table path = memory.way table path := by
  induction path generalizing table with
  | nil => rfl
  | cons i path ih => simp only [PageMemory.way, eq, ih]

theorem small_of_mapped {memory : PageMemory} {cr3 page physAddr flags : Nat} (tree : TableTree memory cr3)
    (mapped : memory.mapPage cr3 physAddr page flags = (true, memory')) (level : Nat) : memory.wayTo cr3 page ≠ .large level := by
  intro way
  have outcome := (tree.mapPage mapped).2
  rw [way] at outcome
  exact nomatch outcome.1

theorem right_update (tree : TableTree fault.memory fault.cr3) (hf : fault.area = some area) (updates : fault.Updates) :
    fault.Right contents true (fault.memory.mapPages fault.cr3 fault.oldPhys fault.page 1 (mapFlags area)).2 ↔
      ((fault.memory.mapPages fault.cr3 fault.oldPhys fault.page 1 (mapFlags area)).1 = true → area.prot &&& 4 ≠ 0) := by
  have physSmall := fault.oldPhys_lt
  cases mapped : fault.memory.mapPages fault.cr3 fault.oldPhys fault.page 1 (mapFlags area) with
  | mk ok memory' =>
    cases ok with
    | false => exact iff_of_true (right_unmapped hf (mapPages_refused tree physSmall fault.page_lt mapped).1) fun no => nomatch no
    | true =>
      obtain ⟨entry, _, page⟩ := mapPages_area tree physSmall fault.page_lt mapped
      have mappable : Mappable fault.oldPhys := by
        rcases oldPhys_cases (small_of_mapped tree page) with zero | ⟨old, _, eq⟩
        · exact absurd zero updates.2
        · rw [eq]
          exact entryAddr_mappable old
      rw [right_mapped hf entry, flagBits_mapped mappable, mapFlags_eq_iff, and_iff_left]
      · exact ⟨fun right _ => right, fun right => right rfl⟩
      · exact fun new => absurd updates new.1

theorem faultTarget_lt {tables : Descriptors} {page physAddr : Nat} (target : faultTarget tables area page = some (some physAddr)) :
    physAddr < 2 ^ 64 := by
  unfold faultTarget at target
  cases backing : area.backingFile with
  | none =>
    rw [backing] at target
    exact nomatch target
  | some id =>
    rw [backing] at target
    dsimp only at target
    split at target
    · cases target
      exact add64_lt _ _
    · split at target
      · obtain ⟨framebuffer, _, eq⟩ := Option.map_eq_some_iff.mp target
        cases eq
        exact add64_lt _ _
      · exact nomatch target

/-- A frame that is taken for a page, and memory with it. -/
structure Granted (memory taken : PageMemory) (frame : Nat) : Prop where
  managed : Managed frame
  fresh : ¬memory.InUse frame
  words : taken.words = memory.words
  inUse : ∀ addr, taken.InUse addr ↔ memory.InUse addr ∨ addr = frame

section

variable {taken between : PageMemory} {frame : Nat}

section

variable (granted : Granted fault.memory taken frame)
include granted

theorem Granted.small : frame < 2 ^ 64 := by
  have lt := granted.managed.mappable.small
  omega

theorem Granted.tableAt (path : List Nat) : taken.tableAt fault.cr3 path = fault.memory.tableAt fault.cr3 path := by
  unfold PageMemory.tableAt PageMemory.levelEntry
  rw [granted.words]

theorem Granted.isTable {addr : Nat} (isTable : taken.IsTable fault.cr3 addr) : fault.memory.IsTable fault.cr3 addr := by
  obtain ⟨path, level, hin, hr⟩ := isTable
  exact ⟨path, level, hin, (granted.tableAt path).symm.trans hr⟩

theorem Granted.tree (tree : TableTree fault.memory fault.cr3) : TableTree taken fault.cr3 := by
  constructor
  · intro addr isTable managed
    exact (granted.inUse addr).mpr (.inl (tree.taken addr (granted.isTable isTable) managed))
  · intro path path' level level' addr hin hin' hr hr'
    rw [granted.tableAt] at hr hr'
    exact tree.once path path' level level' addr hin hin' hr hr'

theorem Granted.notTable (tree : TableTree fault.memory fault.cr3) {physAddr flags : Nat}
    (mapped : taken.mapPage fault.cr3 physAddr fault.page flags = (true, between)) : ¬between.IsTable fault.cr3 frame := by
  intro isTable
  rcases (granted.tree tree).mapPage_fresh mapped isTable with old | unused
  · exact granted.fresh (tree.taken frame (granted.isTable old) granted.managed)
  · exact unused ((granted.inUse frame).mpr (.inr rfl))

theorem ram_refused (tree : TableTree fault.memory fault.cr3)
    (mapped : taken.mapPages fault.cr3 frame fault.page 1 (mapFlags area) = (false, between)) :
    fault.Right contents false (between.free frame) ↔
      (taken.wayTo fault.cr3 fault.page = .missing → taken.allocPage.1 = 0) := by
  obtain ⟨_, addresses, kept, added⟩ := mapPages_refused (granted.tree tree) granted.small fault.page_lt mapped
  unfold Right
  rw [if_neg Bool.false_ne_true]
  constructor
  · intro ⟨_, frames⟩
    by_contra wrong
    obtain ⟨table, unused, used⟩ := added wrong
    have other : table ≠ frame := by
      rintro rfl
      exact unused ((granted.inUse table).mpr (.inr rfl))
    have pre := (frames table).mp ((free_inUse granted.managed table).mpr ⟨used, other⟩)
    exact unused ((granted.inUse table).mpr (.inl pre))
  · intro fits
    refine ⟨fun virtAddr => (addresses virtAddr).trans ?_, fun other => ?_⟩
    · unfold PageMemory.getPhysicalAddress
      rw [granted.words]
    · rw [free_inUse granted.managed, inUse_congr (kept fits), granted.inUse]
      constructor
      · grind
      · intro pre
        refine ⟨.inl pre, ?_⟩
        rintro rfl
        exact granted.fresh pre

theorem ram_ownerless (tree : TableTree fault.memory fault.cr3)
    (held : ∀ path entry, Indices path → fault.memory.pageAt fault.cr3 path = some entry → Held fault.memory (entryAddr entry))
    (mapped : taken.mapPages fault.cr3 frame fault.page 1 (mapFlags area) = (true, between)) :
    ¬fault.Right contents false (between.free frame) := by
  obtain ⟨entry, grows, page⟩ := mapPages_area (granted.tree tree) granted.small fault.page_lt mapped
  have bound := granted.managed.mappable.small
  unfold Right
  rw [if_neg Bool.false_ne_true]
  intro ⟨addresses, _⟩
  have maps : Memory.Maps taken between fault.cr3 (pathOf fault.page) (frame ||| mapFlags area) :=
    ((granted.tree tree).mapPage page).1
  obtain ⟨last, hr⟩ := maps.table
  have after : between.getPhysicalAddress fault.cr3 fault.page = frame := by
    rw [getPhysicalAddress_last hr, PageMemory.frameAt, entry, Option.map_some,
      entryAddr_flags granted.managed.mappable (mapFlags_spec area).1, fault.page_aligned]
    exact add64_eq (by omega)
  have pre : fault.oldPhys = frame := (addresses fault.page).symm.trans after
  have lt : ∀ level, fault.memory.wayTo fault.cr3 fault.page ≠ .large level := by
    intro level
    have notLarge := small_of_mapped (granted.tree tree) page level
    unfold PageMemory.wayTo at notLarge ⊢
    rwa [way_words granted.words] at notLarge
  rcases oldPhys_cases lt with zero | ⟨old, there, eq⟩
  · exact granted.managed.pos (pre.symm.trans zero)
  · have used := held _ old (indices_pathOf fault.page) there
    rw [← eq, pre] at used
    exact granted.fresh (used granted.managed)

end

theorem ram_filled {bytes : Bytes} (granted : Granted fault.memory taken frame) (tree : TableTree fault.memory fault.cr3)
    (hf : fault.area = some area) (new : fault.NewPage area)
    (mapped : taken.mapPages fault.cr3 frame fault.page 1 (mapFlags area) = (true, between)) :
    fault.Right contents true { between with words := Function.update between.words frame fun i => load bytes (8 * i) 8 } ↔
      area.prot &&& 4 ≠ 0 ∧ ∀ k < pageSize, bytes k = areaByte contents area fault.page k := by
  obtain ⟨entry, grows, page⟩ := mapPages_area (granted.tree tree) granted.small fault.page_lt mapped
  have mappable := granted.managed.mappable
  have notTable := granted.notTable tree page
  generalize filled : ({ between with words := Function.update between.words frame fun i => load bytes (8 * i) 8 } : PageMemory) =
    after
  have words : ∀ table, between.IsTable fault.cr3 table → after.words table = between.words table := by
    intro table isTable
    rw [← filled]
    apply Function.update_of_ne
    rintro rfl
    exact notTable isTable
  have walks : after.tableAt fault.cr3 (pathOf fault.page).tail = between.tableAt fault.cr3 (pathOf fault.page).tail := by
    apply tableAt_congr _ (indices_pathOf fault.page).tail
    intro path node i hin hr
    unfold PageMemory.levelEntry
    rw [words node.2 (isTable_of_reached hin.tail hr)]
  have kept : after.pageAt fault.cr3 (pathOf fault.page) = some (frame ||| mapFlags area) := by
    rw [← entry]
    apply pageAt_congr walks
    intro node hr
    rw [words node.2 (isTable_of_reached (indices_pathOf fault.page).tail hr)]
  have content : ∀ k < pageSize, after.byteAt (frame + k) = bytes k := by
    intro k hin
    apply byteAt_page mappable.aligned hin
    intro i
    rw [← filled]
    dsimp only
    rw [Function.update_self]
  rw [right_mapped hf kept, flagBits_mapped mappable, mapFlags_eq_iff, forall_prop_of_true new,
    entryAddr_flags mappable (mapFlags_spec area).1]
  apply and_congr_right'
  apply forall₂_congr
  intro k hin
  rw [content k hin]

end

theorem right_ram (tree : TableTree fault.memory fault.cr3)
    (held : ∀ path entry, Indices path → fault.memory.pageAt fault.cr3 path = some entry → Held fault.memory (entryAddr entry))
    (hf : fault.area = some area) (new : fault.NewPage area)
    (handled : demandPage fault.tables fault.cr3 area fault.memory fault.page fault.read.content = some (ok, memory')) :
    fault.Right contents ok memory' ↔ (fault.memory.allocPage.1 ≠ 0 →
      fault.MapFits fault.memory.allocPage.2 fault.memory.allocPage.1 area
        (area.prot &&& 4 ≠ 0 ∧ fault.Delivers contents area)) := by
  unfold demandPage at handled
  rw [new.2] at handled
  dsimp only at handled
  rcases allocPage_cases fault.memory with none_ | ⟨frame, frames, alloc, managed, fresh, inUse⟩
  · rw [none_] at handled ⊢
    cases handled
    exact iff_of_true right_unchanged fun some_ => absurd rfl some_
  · rw [alloc] at handled ⊢
    rw [if_neg managed.pos] at handled
    have granted : Granted fault.memory { fault.memory with frames := frames } frame := ⟨managed, fresh, rfl, inUse⟩
    rw [forall_prop_of_true managed.pos]
    unfold MapFits
    cases mapped : PageMemory.mapPages { fault.memory with frames := frames } fault.cr3 frame fault.page 1 (mapFlags area) with
    | mk mappedOk between =>
      rw [mapped] at handled
      cases mappedOk with
      | false =>
        cases handled
        rw [if_neg Bool.false_ne_true]
        exact ram_refused granted tree mapped
      | true =>
        rw [if_pos rfl]
        unfold faultFill at handled
        unfold Delivers
        cases backing : area.backingFile with
        | none =>
          rw [backing] at handled
          cases handled
          have zeros : between.clearPage frame =
              { between with words := Function.update between.words frame fun i => load (fun _ => 0) (8 * i) 8 } := by
            simp only [PageMemory.clearPage, load_zero]
          rw [zeros, ram_filled granted tree hf new mapped]
          apply and_congr_right'
          apply iff_of_true _ trivial
          intro k _
          rw [areaByte, backing]
        | some id =>
          rw [backing] at handled
          dsimp only at handled
          cases owner : (fault.tables.files id).hasOwner with
          | false =>
            rw [owner] at handled
            cases handled
            exact iff_of_false (ram_ownerless granted tree held mapped) fun wrong => Bool.false_ne_true (owner.symm.trans wrong.2.1)
          | true =>
            rw [owner] at handled
            cases handled
            rw [show fault.read.content = fun i => load fault.read.byte (8 * i) 8 from rfl,
              ram_filled granted tree hf new mapped]
            simp only [owner, true_and]

/-- A fault does what it may exactly when it fits. -/
theorem fault_right_iff (tree : TableTree fault.memory fault.cr3)
    (held : ∀ path entry, Indices path → fault.memory.pageAt fault.cr3 path = some entry → Held fault.memory (entryAddr entry))
    (handled : fault.handle = some (ok, memory')) : fault.Right contents ok memory' ↔ fault.Fits contents := by
  unfold handle handleUserPageFault at handled
  unfold Fits
  cases there : findAt fault.faultAddr fault.vmas with
  | none =>
    rw [there] at handled
    cases handled
    have none_ : fault.area = none := by rw [area, there]; rfl
    exact iff_of_true right_unchanged fun area hf => nomatch none_.symm.trans hf
  | some place =>
    obtain ⟨pre, area, after⟩ := place
    have hf : fault.area = some area := by rw [UserFault.area, there]; rfl
    have only : ∀ fits : VMArea → Prop, (∀ other, fault.area = some other → fits other) ↔ fits area := by
      intro fits
      constructor
      · exact fun all => all area hf
      · grind
    rw [there] at handled
    rw [only]
    dsimp only at handled
    by_cases refused : fault.errorCode &&& 2 ≠ 0 ∧ area.prot &&& 2 = 0
    · rw [if_pos refused] at handled
      cases handled
      exact iff_of_true right_unchanged fun allowed => absurd refused allowed
    · rw [if_neg refused] at handled
      by_cases updates : fault.Updates
      · have updated : fault.errorCode &&& 1 ≠ 0 ∧ fault.memory.getPhysicalAddress fault.cr3 (pageMask fault.faultAddr) ≠ 0 :=
          updates
        rw [if_pos updated] at handled
        cases handled
        rw [forall_prop_of_true refused, and_iff_left fun demand => absurd updates demand, forall_prop_of_true updates]
        exact right_update tree hf updates
      · have demand : ¬(fault.errorCode &&& 1 ≠ 0 ∧ fault.memory.getPhysicalAddress fault.cr3 (pageMask fault.faultAddr) ≠ 0) :=
          updates
        rw [if_neg demand] at handled
        rw [forall_prop_of_true refused, and_iff_right fun wrong => absurd wrong updates, forall_prop_of_true updates]
        cases target : faultTarget fault.tables area fault.page with
        | none =>
          unfold demandPage at handled
          rw [show faultTarget fault.tables area (pageMask fault.faultAddr) = none from target] at handled
          exact nomatch handled
        | some backing =>
          cases backing with
          | some physAddr =>
            have old : ¬fault.NewPage area := fun new => nomatch target.symm.trans new.2
            unfold demandPage at handled
            rw [show faultTarget fault.tables area (pageMask fault.faultAddr) = some (some physAddr) from target] at handled
            rw [right_device tree (faultTarget_lt target) hf old (some.inj handled)]
            constructor
            · simp
            · exact fun fits => fits.1 physAddr rfl
          | none =>
            rw [right_ram tree held hf ⟨updates, target⟩ handled, forall_prop_of_true rfl,
              and_iff_right fun physAddr no => nomatch no]

end UserFault

/-- A write to an anonymous page that is not there. -/
def firstWrite (prot : Nat) : UserFault where
  tables := noDescriptors
  cr3 := 0x1000
  vmas := [⟨0x1000, 0x2000, prot, 0x22, none, 0⟩]
  memory := blankMemory
  faultAddr := 0x1234
  errorCode := 6
  read := ⟨0, fun _ => 0⟩

theorem first_write_right : ∃ memory', (firstWrite 7).handle = some (true, memory') ∧
    (firstWrite 7).Right (fun _ => []) true memory' := by
  obtain ⟨memory', handled⟩ : ∃ memory', (firstWrite 7).handle = some (true, memory') := by
    have ans : (firstWrite 7).handle.map Prod.fst = some true := by decide +kernel
    obtain ⟨⟨_, memory'⟩, eq, rfl⟩ := Option.map_eq_some_iff.mp ans
    exact ⟨memory', eq⟩
  refine ⟨memory', handled, ?_⟩
  apply (UserFault.fault_right_iff (by exact blankMemory_tree) _ handled).mpr
  · intro area hf _
    cases hf
    have mapped : ((firstWrite 7).memory.allocPage.2.mapPages 0x1000 (firstWrite 7).memory.allocPage.1 (firstWrite 7).page 1
        7).1 = true := by decide +kernel
    refine ⟨fun updates => absurd updates.1 (by decide), fun _ => ⟨fun _ target => (nomatch target), fun _ _ => ?_⟩⟩
    exact (if_pos mapped).mpr ⟨by decide, trivial⟩
  · intro path entry _ mapped
    exact nomatch (blankMemory_pageAt path).symm.trans mapped

/-- The page may be executed, although its area may not. -/
theorem first_write_executable : ∃ memory', (firstWrite 3).handle = some (true, memory') ∧
    ¬(firstWrite 3).Right (fun _ => []) true memory' := by
  have ans : (firstWrite 3).handle.map (fun res => (res.1, res.2.pageAt (firstWrite 3).cr3
      (pathOf (firstWrite 3).page))) = some (true, some 0x100007) := by decide +kernel
  obtain ⟨⟨ok, memory'⟩, handled, both⟩ := Option.map_eq_some_iff.mp ans
  obtain ⟨rfl, mapped⟩ := Prod.mk.inj both
  have hf : (firstWrite 3).area = some ⟨0x1000, 0x2000, 3, 0x22, none, 0⟩ := by decide
  refine ⟨memory', handled, fun right => ?_⟩
  have flags := ((UserFault.right_mapped hf mapped).mp right).1
  exact absurd flags (by decide)

end RosKernel.Process
