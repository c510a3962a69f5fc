import RosKernel.Process.VmaList

/-! `Sys_MMap`, and the address space that `Sys_Execve` starts it from. -/

set_option autoImplicit false

namespace RosKernel.Process

open Memory List

inductive FileType where
  | dir
  | normal
  | pipe
  | sock
  | devChar
  | devBlok
  | symlink
  | shm
  deriving DecidableEq, Repr

/-- `privateData` names the region of an `FT_SHM` file, and `hasOwner` says that `Node` and its
`FSOwner` are there. -/
structure File where
  type : FileType
  fileName : String
  refCount : Int
  privateData : Nat
  hasOwner : Bool
  deriving DecidableEq, Repr

structure ShmRegion where
  name : String
  physAddr : Nat
  sizeInPages : Nat
  refCount : Nat
  used : Bool
  deriving DecidableEq, Repr

structure Framebuffer where
  address : Nat
  pitch : Nat
  height : Nat
  deriving DecidableEq, Repr

/-- What the calls read through a descriptor; `framebuffer` is absent without boot information. -/
structure Descriptors where
  fdTable : Nat → Option FileId
  files : FileId → File
  regions : Nat → ShmRegion
  framebuffer : Option Framebuffer

structure AddressSpace where
  vmas : List VMArea
  mmapNextAddr : Nat
  deriving DecidableEq, Repr

def maxFileInProcess : Nat := 64

def framebufferName : String := "/dev/fb0"

/-- The file behind a mapping. Only a regular file is retained: `FT_SHM` and the
framebuffer leave their branch without counting the new reference. -/
def mmapBacking (tables : Descriptors) (flags fd offset pages : Nat) :
    Except Int (Option FileId × List MmEffect) :=
  if flags &&& 0x20 ≠ 0 then .ok (none, [])
  else if maxFileInProcess ≤ fd then .error rosInvalid
  else
    match tables.fdTable fd with
    | none => .error rosInvalid
    | some id =>
      let file := tables.files id
      if file.type = .shm then
        let region := tables.regions file.privateData
        if mul64 region.sizeInPages pageSize < add64 offset (mul64 pages pageSize) then .error rosInvalid
        else .ok (some id, [])
      else if file.fileName = framebufferName then
        if tables.framebuffer.isNone then .error (-10) else .ok (some id, [])
      else .ok (some id, [.retain id])

/-- Without memory for the area the reference is given back, and for the framebuffer
one that was never taken. -/
def mmapUndo (tables : Descriptors) (backingFile : Option FileId) : List MmEffect :=
  match backingFile with
  | none => []
  | some id => if (tables.files id).type = .shm then [] else [.release id]

/-- The new area; its end is computed from the length again, not from the aligned length
that was checked. -/
def mmapArea (virtualAddr length prot flags : Nat) (backingFile : Option FileId) (offset : Nat) : VMArea where
  start := virtualAddr
  stop := add64 virtualAddr (mul64 (sub64 (add64 length pageSize) 1 / pageSize) pageSize)
  prot := prot
  flags := flags
  backingFile := backingFile
  fileOffset := offset

def sysMMap (tables : Descriptors) (space : AddressSpace) (addr length prot flags fd offset : Nat)
    (newOk : Nat → Bool) : Option (Except Int Nat × AddressSpace × List MmEffect) :=
  match mmapAddress space.vmas space.mmapNextAddr addr length with
  | none => none
  | some (.error code) => some (.error code, space, [])
  | some (.ok virtualAddr) =>
    let pages := sub64 (add64 length pageSize) 1 / pageSize
    match mmapBacking tables flags fd offset pages with
    | .error code => some (.error code, space, [])
    | .ok (backingFile, taken) =>
      if newOk 0 then
        let (vmas, stop) := insertVmaSorted (mmapArea virtualAddr length prot flags backingFile offset) space.vmas
        some (.ok virtualAddr, ⟨vmas, if space.mmapNextAddr < stop then stop else space.mmapNextAddr⟩, taken)
      else some (.error rosNoMem, space, taken ++ mmapUndo tables backingFile)

def stackBase : Nat := userStackTop - userStackPages * pageSize

/-- The area list that `Sys_Execve` builds for an image; either area may lack memory. -/
def execveSpace (imageBase imageEnd : Nat) (newOk : Nat → Bool) : AddressSpace :=
  let image := if newOk 0 then [⟨imageBase, pageAlign imageEnd, 0x7, 0x02, none, 0⟩] else []
  let stack := if newOk 1 then [⟨stackBase, userStackTop, 0x3, 0x22, none, 0⟩] else []
  ⟨image ++ stack, if userHeapStart < pageAlign imageEnd then pageAlign imageEnd else userHeapStart⟩

section

variable {new iter : VMArea} {rest vmas : List VMArea}

/-- No address is in both areas. -/
def VMArea.Apart (one other : VMArea) : Prop := one.stop ≤ other.start ∨ other.stop ≤ one.start

/-- The result of an insertion: in shape, with the content of both, and no lower than before. -/
structure Inserted (new : VMArea) (vmas result : List VMArea) : Prop where
  shape : WellFormed result
  maps : ∀ pos source, Maps result pos source ↔ Maps (new :: vmas) pos source
  low : ∀ bound, bound ≤ new.start → (∀ area ∈ vmas, bound ≤ area.start) → ∀ area ∈ result, bound ≤ area.start

theorem Inserted.front (wf : WellFormed (new :: vmas)) : Inserted new vmas (new :: vmas) :=
  ⟨wf, fun _ _ => .rfl, fun _ first later => forall_mem_cons.mpr ⟨first, later⟩⟩

theorem Inserted.behind {result : List VMArea} (ins : Inserted new vmas result)
    (wf : WellFormed (iter :: vmas)) (after : iter.stop ≤ new.start) : Inserted new (iter :: vmas) (iter :: result) := by
  obtain ⟨proper, gap, _⟩ := wellFormed_cons.mp wf
  refine ⟨wellFormed_cons.mpr ⟨proper, ins.low iter.stop after gap, ins.shape⟩, fun pos source => ?_, ?_⟩
  · rw [maps_cons, ins.maps, maps_cons, maps_cons, maps_cons]
    exact or_left_comm
  · intro bound first later
    rw [forall_mem_cons] at later ⊢
    exact ⟨later.1, ins.low bound first later.2⟩

theorem Inserted.covered {result : List VMArea} (ins : Inserted new vmas result) {pos : Nat} :
    Covered result pos ↔ new.Has pos ∨ Covered vmas pos := by
  simp only [covered_iff, ins.maps, maps_cons, exists_or, exists_and_left, exists_eq', and_true]

theorem Inserted.join {cur : VMArea} (ins : Inserted new vmas (cur :: rest)) :
    Inserted new vmas ((tryMergeNext cur rest).1 :: (tryMergeNext cur rest).2) := by
  have shape : WellFormed ([] ++ cur :: rest) := ins.shape
  refine ⟨shape.tryMergeNext, fun pos source => ?_, fun bound first later => ?_⟩
  · rw [maps_tryMergeNext ins.shape]
    exact ins.maps pos source
  · have pre := forall_mem_cons.mp (ins.low bound first later)
    rcases tryMergeNext_cases cur rest with eq | ⟨next, tail, rfl, _, _, _, _, _, joined⟩
    · rw [eq]
      exact forall_mem_cons.mpr pre
    · grind

theorem VMArea.Apart.behind {area : VMArea} (ne : new.Apart area) (proper : area.Proper)
    (notBefore : new.start ≤ area.start) : new.stop ≤ area.start := by
  have nonempty := proper.nonempty
  cases ne with
  | inl below => exact below
  | inr above => omega

theorem VMArea.Apart.before {area : VMArea} (ne : new.Apart area) (proper : new.Proper)
    (first : area.start < new.start) : area.stop ≤ new.start := by
  have nonempty := proper.nonempty
  cases ne with
  | inl below => omega
  | inr above => exact above

theorem wellFormed_front (wf : WellFormed vmas) (proper : new.Proper) (ne : ∀ area ∈ vmas, new.Apart area)
    (first : ∀ area ∈ vmas, new.start ≤ area.start) : WellFormed (new :: vmas) :=
  wellFormed_cons.mpr ⟨proper, fun area mem => (ne area mem).behind (wf.proper area mem)
    (first area mem), wf⟩

theorem WellFormed.start_le (wf : WellFormed (iter :: rest)) : ∀ area ∈ iter :: rest, iter.start ≤ area.start := by
  obtain ⟨proper, gap, _⟩ := wellFormed_cons.mp wf
  refine forall_mem_cons.mpr ⟨Nat.le_refl _, fun area mem => ?_⟩
  exact Nat.le_trans (Nat.le_of_lt proper.nonempty) (gap area mem)

theorem insertAfter_spec (wf : WellFormed (iter :: rest)) (proper : new.Proper)
    (after : iter.stop ≤ new.start) (ne : ∀ area ∈ rest, new.Apart area) :
    Inserted new (iter :: rest) (insertAfter new iter rest).1 := by
  induction rest generalizing iter with
  | nil =>
    have alone : WellFormed [new] := wellFormed_cons.mpr ⟨proper, forall_mem_nil _, ⟨forall_mem_nil _, .nil⟩⟩
    exact ((Inserted.front alone).behind wf after).join
  | cons next rest ih =>
    obtain ⟨_, _, restWf⟩ := wellFormed_cons.mp wf
    unfold insertAfter
    by_cases further : next.start < new.start
    · rw [if_pos further]
      have nextBefore := (ne next (.head _)).before proper further
      have ins := ih restWf nextBefore fun area mem => ne area (.tail _ mem)
      exact ins.behind wf after
    · rw [if_neg further]
      have inFront := wellFormed_front restWf proper ne fun area mem =>
        Nat.le_trans (Nat.le_of_not_lt further) (restWf.start_le area mem)
      exact ((Inserted.front inFront).join.behind wf after).join

theorem insertVmaSorted_spec (wf : WellFormed vmas) (proper : new.Proper)
    (ne : ∀ area ∈ vmas, new.Apart area) : Inserted new vmas (insertVmaSorted new vmas).1 := by
  cases vmas with
  | nil => exact Inserted.front (wellFormed_front wf proper ne (forall_mem_nil _))
  | cons head rest =>
    simp only [insertVmaSorted]
    by_cases first : new.start < head.start
    · rw [if_pos first]
      have inFront := wellFormed_front wf proper ne fun area mem =>
        Nat.le_trans (Nat.le_of_lt first) (wf.start_le area mem)
      exact (Inserted.front inFront).join
    · rw [if_neg first]
      obtain ⟨headApart, restApart⟩ := forall_mem_cons.mp ne
      obtain ⟨headProper, _, _⟩ := wellFormed_cons.mp wf
      have headBefore : head.stop ≤ new.start := by
        have newNonempty := proper.nonempty
        cases headApart with
        | inl below => omega
        | inr above => exact above
      exact insertAfter_spec wf proper headBefore restApart

end

section

variable {vmas : List VMArea} {addr length : Nat}

/-- The pages of a request, rounded up from its length, are free and in user space. -/
structure Fits (vmas : List VMArea) (virtualAddr length : Nat) : Prop where
  aligned : virtualAddr % pageSize = 0
  below : virtualAddr + (length + 4095) / 4096 * 4096 ≤ userMaxAddr
  free : ∀ area ∈ vmas, virtualAddr + (length + 4095) / 4096 * 4096 ≤ area.start ∨ area.stop ≤ virtualAddr

/-- A valid range of a length that rounds without wrapping lies below the limit. -/
theorem below_of_isValidUserRange {start : Nat} (valid : isValidUserRange start (pageAlign length) = true)
    (rounds : length ≤ 2 ^ 64 - 4096) (lt : start < 2 ^ 64) :
    start + (length + 4095) / 4096 * 4096 ≤ userMaxAddr := by
  simp only [isValidUserRange, Bool.and_eq_true, Bool.not_eq_true', decide_eq_false_iff_not, pageAlign_eq rounds,
    add64, userMaxAddr] at valid ⊢
  omega

/-- Areas are aligned, so a range apart from one of them is so with its length rounded up. -/
theorem apart_of_not_overlaps {start stop : Nat} {area : VMArea} (proper : area.Proper)
    (none_ : overlaps start (start + stop) area = false) :
    start % pageSize = 0 → start + (stop + 4095) / 4096 * 4096 ≤ area.start ∨ area.stop ≤ start := by
  have hal := proper.startAligned
  simp only [overlaps, Bool.and_eq_false_iff, decide_eq_false_iff_not, pageSize] at none_ hal ⊢
  omega

/-- What the search may return: nothing, or an aligned address clear of every area. -/
def Clear (vmas : List VMArea) (length found : Nat) : Prop :=
  found = 0 ∨ found % pageSize = 0 ∧ found < 2 ^ 64 ∧ ∀ area ∈ vmas, overlaps found (add64 found length) area = false

theorem findFreeLoop_spec (wf : WellFormed vmas) {searchLimit : Nat} (fuel : Nat) :
    ∀ {startAddr : Nat}, startAddr % pageSize = 0 → startAddr < 2 ^ 64 → pending startAddr vmas ≤ fuel →
      ∃ hf, findFreeLoop vmas searchLimit length fuel startAddr = some hf ∧ Clear vmas length hf := by
  induction fuel with
  | zero =>
    intro startAddr hal lt enough
    unfold findFreeLoop
    split
    · exact ⟨0, rfl, .inl rfl⟩
    · split
      next none_ => exact ⟨startAddr, rfl, .inr ⟨hal, lt, by simpa using none_⟩⟩
      next area hf =>
        have ahead := find?_some hf
        simp only [overlaps, Bool.and_eq_true, decide_eq_true_eq] at ahead
        have fewer := pending_lt (mem_of_find?_eq_some hf) ahead.1
        omega
  | succ fuel ih =>
    intro startAddr hal lt enough
    unfold findFreeLoop
    split
    · exact ⟨0, rfl, .inl rfl⟩
    · split
      next none_ => exact ⟨startAddr, rfl, .inr ⟨hal, lt, by simpa using none_⟩⟩
      next area hf =>
        have mem := mem_of_find?_eq_some hf
        have ahead := find?_some hf
        simp only [overlaps, Bool.and_eq_true, decide_eq_true_eq] at ahead
        have fewer := pending_lt mem ahead.1
        have proper := wf.proper area mem
        have below := proper.below
        simp only [userMaxAddr] at below
        simp only [if_pos proper.stopAligned]
        exact ih proper.stopAligned (by omega) (by omega)

theorem pageAlign_aligned (value : Nat) : pageAlign value % pageSize = 0 := by
  unfold pageAlign
  rw [pageMask_eq (add64_lt _ _)]
  exact Nat.mul_mod_left _ _

theorem pageAlign_lt (value : Nat) : pageAlign value < 2 ^ 64 := by
  have lt := add64_lt value 0xFFF
  unfold pageAlign
  rw [pageMask_eq lt]
  omega

theorem findFreeRegion_spec (length : Nat) (wf : WellFormed vmas) {mmapNextAddr : Nat}
    (lt : mmapNextAddr < 2 ^ 64) :
    ∃ hf, findFreeRegion vmas mmapNextAddr length = some hf ∧ Clear vmas length hf := by
  have rounded : (if mmapNextAddr % pageSize = 0 then mmapNextAddr else pageAlign mmapNextAddr) % pageSize = 0 ∧
      (if mmapNextAddr % pageSize = 0 then mmapNextAddr else pageAlign mmapNextAddr) < 2 ^ 64 := by
    split
    next hal => exact ⟨hal, lt⟩
    next => exact ⟨pageAlign_aligned mmapNextAddr, pageAlign_lt mmapNextAddr⟩
  simp only [findFreeRegion]
  generalize (if mmapNextAddr % pageSize = 0 then mmapNextAddr else pageAlign mmapNextAddr) = start at rounded ⊢
  obtain ⟨hal, bounded⟩ := rounded
  apply findFreeLoop_spec wf
  · split
    · decide
    · exact hal
  · split
    · decide
    · exact bounded
  · exact countP_le_length

theorem mmapAddress_isSome (addr length : Nat) (wf : WellFormed vmas) {mmapNextAddr : Nat} (lt : mmapNextAddr < 2 ^ 64) :
    (mmapAddress vmas mmapNextAddr addr length).isSome := by
  obtain ⟨hf, search, _⟩ := findFreeRegion_spec length wf lt
  simp only [mmapAddress, search]
  split_ifs <;> rfl

theorem valid_of_mmapAddress {mmapNextAddr virtualAddr : Nat}
    (accepted : mmapAddress vmas mmapNextAddr addr length = some (.ok virtualAddr)) :
    isValidUserRange virtualAddr (pageAlign length) = true := by
  unfold mmapAddress at accepted
  simp only at accepted
  split at accepted
  · exact nomatch accepted
  · split at accepted
    · split at accepted
      · exact nomatch accepted
      · split at accepted
        · exact nomatch accepted
        · split at accepted
          next valid =>
            cases accepted
            exact valid
          · exact nomatch accepted
    · split at accepted
      · exact nomatch accepted
      · split at accepted
        · exact nomatch accepted
        next valid =>
          split at accepted
          · exact nomatch accepted
          · cases accepted
            simpa using valid

/-- An accepted request of a length that rounds without wrapping fits between the areas. -/
theorem fits_of_mmapAddress (wf : WellFormed vmas) {mmapNextAddr virtualAddr : Nat} (lt : mmapNextAddr < 2 ^ 64)
    (addrSmall : addr < 2 ^ 64) (rounds : length ≤ 2 ^ 64 - 4096)
    (accepted : mmapAddress vmas mmapNextAddr addr length = some (.ok virtualAddr)) :
    Fits vmas virtualAddr length ∧ 0 < length := by
  obtain ⟨hf, search, clear⟩ := findFreeRegion_spec length wf lt
  simp only [mmapAddress, search] at accepted
  split at accepted
  · exact nomatch accepted
  next pos =>
    refine ⟨?_, Nat.pos_of_ne_zero pos⟩
    split at accepted
    next =>
      split at accepted
      · exact nomatch accepted
      next nz =>
        split at accepted
        next valid =>
          cases accepted
          obtain ⟨hal, bounded, none_⟩ := clear.resolve_left nz
          have below := below_of_isValidUserRange valid rounds bounded
          refine ⟨hal, below, fun area mem => ?_⟩
          have ne := none_ area mem
          rw [add64_eq (by simp only [userMaxAddr] at below; omega)] at ne
          exact apart_of_not_overlaps (wf.proper area mem) ne hal
        · exact nomatch accepted
    next =>
      split at accepted
      · exact nomatch accepted
      next hal =>
        split at accepted
        · exact nomatch accepted
        next valid =>
          split at accepted
          · exact nomatch accepted
          next none_ =>
            cases accepted
            simp only [Bool.not_eq_true', Bool.not_eq_false] at valid
            have below := below_of_isValidUserRange valid rounds addrSmall
            refine ⟨Decidable.of_not_not hal, below, fun area mem => ?_⟩
            have ne : overlaps addr (add64 addr (pageAlign length)) area = false := by
              simpa using fun meets => none_ (any_eq_true.mpr ⟨area, mem, meets⟩)
            rw [pageAlign_eq rounds, add64_eq (by simp only [userMaxAddr] at below; omega)] at ne
            simp only [overlaps, Bool.and_eq_false_iff, decide_eq_false_iff_not] at ne
            omega

end

section

variable {space space' : AddressSpace} {addr length : Nat}

theorem mmapPages_eq (rounds : length ≤ 2 ^ 64 - 4096) :
    mul64 (sub64 (add64 length pageSize) 1 / pageSize) pageSize = (length + 4095) / 4096 * 4096 := by
  simp only [mul64, sub64, add64, pageSize]
  omega

theorem insertAfter_stop {new iter : VMArea} {rest : List VMArea} {bound : Nat} (first : new.stop ≤ bound)
    (later : ∀ area ∈ rest, area.stop ≤ bound) : (insertAfter new iter rest).2 ≤ bound := by
  induction rest generalizing iter with
  | nil => exact first
  | cons next rest ih =>
    obtain ⟨nextBound, restBound⟩ := forall_mem_cons.mp later
    unfold insertAfter
    by_cases further : next.start < new.start
    · rw [if_pos further]
      exact ih restBound
    · rw [if_neg further]
      rcases tryMergeNext_cases new (next :: rest) with eq | ⟨_, _, split, _, _, _, _, _, joined⟩
      · rw [eq]
        exact first
      · cases split
        rw [joined]
        exact nextBound

theorem insertVmaSorted_stop {new : VMArea} {vmas : List VMArea} {bound : Nat} (first : new.stop ≤ bound)
    (later : ∀ area ∈ vmas, area.stop ≤ bound) : (insertVmaSorted new vmas).2 ≤ bound := by
  cases vmas with
  | nil => exact first
  | cons head rest =>
    obtain ⟨headBound, restBound⟩ := forall_mem_cons.mp later
    simp only [insertVmaSorted]
    by_cases pre : new.start < head.start
    · rw [if_pos pre]
      rcases tryMergeNext_cases new (head :: rest) with eq | ⟨_, _, split, _, _, _, _, _, joined⟩
      · rw [eq]
        exact first
      · cases split
        rw [joined]
        exact headBound
    · rw [if_neg pre]
      exact insertAfter_stop first restBound

theorem sysMMap_inv {tables : Descriptors} {prot flags fd off : Nat} {newOk : Nat → Bool}
    {result : Except Int Nat} {effects : List MmEffect}
    (ret : sysMMap tables space addr length prot flags fd off newOk = some (result, space', effects)) :
    (∃ code, result = .error code ∧ space' = space ∧ effects = []) ∨
    ∃ virtualAddr backingFile ht,
      mmapAddress space.vmas space.mmapNextAddr addr length = some (.ok virtualAddr) ∧
      mmapBacking tables flags fd off (sub64 (add64 length pageSize) 1 / pageSize) = .ok (backingFile, ht) ∧
      ((newOk 0 = false ∧ result = .error rosNoMem ∧ space' = space ∧ effects = ht ++ mmapUndo tables backingFile) ∨
        newOk 0 = true ∧ result = .ok virtualAddr ∧ effects = ht ∧
          ∃ ins, ins = insertVmaSorted (mmapArea virtualAddr length prot flags backingFile off) space.vmas ∧
            space'.vmas = ins.1 ∧
            space'.mmapNextAddr = if space.mmapNextAddr < ins.2 then ins.2 else space.mmapNextAddr) := by
  unfold sysMMap at ret
  cases chosen : mmapAddress space.vmas space.mmapNextAddr addr length with
  | none =>
    rw [chosen] at ret
    exact nomatch ret
  | some choice =>
    rw [chosen] at ret
    cases choice with
    | error code =>
      cases ret
      exact .inl ⟨code, rfl, rfl, rfl⟩
    | ok virtualAddr =>
      simp only at ret
      split at ret
      next code _ =>
        cases ret
        exact .inl ⟨code, rfl, rfl, rfl⟩
      next backingFile ht backing =>
        refine .inr ⟨virtualAddr, backingFile, ht, rfl, backing, ?_⟩
        split at ret
        next enough =>
          cases ret
          exact .inr ⟨enough, rfl, rfl, _, rfl, rfl, rfl⟩
        next lacking =>
          cases ret
          exact .inl ⟨Bool.eq_false_iff.mpr lacking, rfl, rfl, rfl⟩

theorem sysMMap_chosen {tables : Descriptors} {prot flags fd off virtualAddr : Nat} {newOk : Nat → Bool}
    {effects : List MmEffect}
    (ret : sysMMap tables space addr length prot flags fd off newOk = some (.ok virtualAddr, space', effects)) :
    mmapAddress space.vmas space.mmapNextAddr addr length = some (.ok virtualAddr) := by
  rcases sysMMap_inv ret with ⟨_, failed, _⟩ | ⟨_, _, _, chosen, _, ⟨_, failed, _⟩ | ⟨_, accepted, _⟩⟩
  · exact nomatch failed
  · exact nomatch failed
  · cases accepted
    exact chosen

theorem mmapArea_eq {virtualAddr prot flags off : Nat} {backingFile : Option FileId} {vmas : List VMArea}
    (fits : Fits vmas virtualAddr length) (rounds : length ≤ 2 ^ 64 - 4096) :
    mmapArea virtualAddr length prot flags backingFile off =
      ⟨virtualAddr, virtualAddr + (length + 4095) / 4096 * 4096, prot, flags, backingFile, off⟩ := by
  have below := fits.below
  unfold mmapArea
  rw [mmapPages_eq rounds, add64_eq]
  simp only [userMaxAddr] at below
  omega

theorem sysMMap_cases {tables : Descriptors} {prot flags fd off : Nat} {newOk : Nat → Bool}
    {result : Except Int Nat} {effects : List MmEffect} (wf : WellFormed space.vmas)
    (lt : space.mmapNextAddr < 2 ^ 64) (addrSmall : addr < 2 ^ 64) (rounds : length ≤ 2 ^ 64 - 4096)
    (ret : sysMMap tables space addr length prot flags fd off newOk = some (result, space', effects)) :
    (∃ code, result = .error code ∧ space' = space) ∨
    ∃ virtualAddr backingFile, result = .ok virtualAddr ∧
      mmapBacking tables flags fd off (sub64 (add64 length pageSize) 1 / pageSize) = .ok (backingFile, effects) ∧
      Fits space.vmas virtualAddr length ∧ 0 < length ∧
      space'.vmas = (insertVmaSorted (mmapArea virtualAddr length prot flags backingFile off) space.vmas).1 ∧
      space'.mmapNextAddr < 2 ^ 64 := by
  rcases sysMMap_inv ret with
    ⟨code, failed, eq, _⟩ | ⟨virtualAddr, backingFile, ht, chosen, backing, outcome⟩
  · exact .inl ⟨code, failed, eq⟩
  · rcases outcome with ⟨_, failed, eq, _⟩ | ⟨_, accepted, rfl, ins, placed, vmas, next⟩
    · exact .inl ⟨rosNoMem, failed, eq⟩
    · obtain ⟨fits, pos⟩ := fits_of_mmapAddress wf lt addrSmall rounds chosen
      refine .inr ⟨virtualAddr, backingFile, accepted, backing, fits, pos, by rw [vmas, placed], ?_⟩
      have bounded : ins.2 ≤ userMaxAddr := by
        rw [placed, mmapArea_eq fits rounds]
        exact insertVmaSorted_stop fits.below fun area mem => (wf.proper area mem).below
      rw [next]
      split
      · exact Nat.lt_of_le_of_lt bounded (by decide)
      · exact lt

theorem sysMMap_isSome (tables : Descriptors) (prot flags fd off : Nat) (newOk : Nat → Bool)
    (addr length : Nat) (wf : WellFormed space.vmas) (lt : space.mmapNextAddr < 2 ^ 64) :
    (sysMMap tables space addr length prot flags fd off newOk).isSome := by
  obtain ⟨choice, chosen⟩ := Option.isSome_iff_exists.mp (mmapAddress_isSome addr length wf lt)
  unfold sysMMap
  rw [chosen]
  cases choice with
  | error code => rfl
  | ok virtualAddr =>
    simp only
    split
    · rfl
    · split <;> rfl

theorem Fits.inserted {vmas : List VMArea} {virtualAddr : Nat} (prot flags off : Nat)
    (backingFile : Option FileId) (fits : Fits vmas virtualAddr length) (pos : 0 < length)
    (rounds : length ≤ 2 ^ 64 - 4096) (wf : WellFormed vmas) :
    Inserted ⟨virtualAddr, virtualAddr + (length + 4095) / 4096 * 4096, prot, flags, backingFile, off⟩ vmas
      (insertVmaSorted (mmapArea virtualAddr length prot flags backingFile off) vmas).1 := by
  have hal := fits.aligned
  rw [mmapArea_eq fits rounds]
  refine insertVmaSorted_spec wf ⟨?_, hal, ?_, fits.below⟩ fits.free
  · simp only
    omega
  · simp only [pageSize] at hal ⊢
    omega

end

section

variable {vmas vmas' : List VMArea} {addr length : Nat} {newOk : Nat → Bool} {result : Except Int Unit}
  {effects : List MmEffect}

/-- A valid range is aligned and does not end before its start. A length that wraps
to nothing when rounded gives an empty one. -/
theorem range_of_valid (hal : addr % pageSize = 0)
    (valid : isValidUserRange addr (pageAlign length) = true) :
    add64 addr (pageAlign length) % pageSize = 0 ∧ addr ≤ add64 addr (pageAlign length) := by
  have lengthAligned := pageAlign_aligned length
  simp only [isValidUserRange, Bool.and_eq_true, Bool.not_eq_true', decide_eq_false_iff_not] at valid
  simp only [add64, pageSize] at *
  omega

theorem munmap_cases (ret : munmap vmas addr length newOk = some (result, vmas', effects)) :
    ((length = 0 ∨ addr % pageSize ≠ 0 ∨ isValidUserRange addr (pageAlign length) = false) ∧
      vmas' = vmas ∧ effects = []) ∨
    length ≠ 0 ∧ addr % pageSize = 0 ∧ isValidUserRange addr (pageAlign length) = true ∧
      vmas' = vmas.flatMap (fun area => (area.carve addr (add64 addr (pageAlign length))).kept) ∧
      effects = vmas.flatMap fun area => (area.carve addr (add64 addr (pageAlign length))).effects := by
  unfold munmap at ret
  split at ret
  next refused =>
    cases ret
    exact .inl ⟨refused, rfl, rfl⟩
  next valid =>
    simp only [not_or, Decidable.not_not, Bool.not_eq_false] at valid
    obtain ⟨⟨_, _⟩, pass, eq⟩ := Option.map_eq_some_iff.mp ret
    cases eq
    obtain ⟨rfl, rfl⟩ := munmapPass_some pass
    exact .inr ⟨valid.1, valid.2.1, valid.2.2, rfl, rfl⟩

theorem mprotect_cases {prot : Nat} (ret : mprotect vmas addr length prot newOk = some (result, vmas', effects)) :
    (vmas' = vmas ∧ effects = []) ∨
    length ≠ 0 ∧ addr % pageSize = 0 ∧ isValidUserRange addr (pageAlign length) = true ∧
      ProtectRun (add64 addr (pageAlign length)) prot addr vmas vmas' effects := by
  unfold mprotect at ret
  split at ret
  · cases ret
    exact .inl ⟨rfl, rfl⟩
  next some_ =>
    split at ret
    · cases ret
      exact .inl ⟨rfl, rfl⟩
    next valid =>
      simp only [not_or, Decidable.not_not, Bool.not_eq_false] at valid
      exact .inr ⟨some_, valid.1, valid.2, protectRun_of_loop _ ret⟩

theorem mprotect_maps {prot : Nat} (wf : WellFormed vmas)
    (ret : mprotect vmas addr length prot newOk = some (result, vmas', effects)) :
    WellFormed vmas' ∧ ∀ pos source, Maps vmas' pos source ↔ Maps vmas pos source := by
  rcases mprotect_cases ret with ⟨rfl, _⟩ | ⟨_, hal, valid, run⟩
  · exact ⟨wf, fun _ _ => .rfl⟩
  · exact run.spec (range_of_valid hal valid).1 hal wf

theorem mprotect_isSome {prot : Nat} (wf : WellFormed vmas) : (mprotect vmas addr length prot newOk).isSome := by
  unfold mprotect
  split
  · rfl
  · split
    · rfl
    next valid =>
      simp only [not_or, Decidable.not_not, Bool.not_eq_false] at valid
      apply mprotectLoop_isSome (range_of_valid valid.1 valid.2).1 _ wf valid.1
      have some_ : pending addr vmas ≤ vmas.length := countP_le_length
      exact .inl (by omega)

end

end RosKernel.Process
