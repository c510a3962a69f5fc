import RosKernel.Memory.UnmapRanges
import RosKernel.Process.Residency

/-! What `Sys_Munmap` takes out of a task's memory.

An area list stands for a map from pages to their rights and backing. The offset in a file or a
shared region follows a cut, but the address of a framebuffer page is counted from the start of
whatever area it is in.
-/

set_option autoImplicit false

namespace RosKernel.Process

open Memory List Option

/-- What backs the pages of an area: the offset in a file or a shared region, the physical address
in the framebuffer. -/
structure View where
  prot : Nat
  flags : Nat
  backing : Option (FileId × Option Nat)
  deriving DecidableEq

def File.showsFramebuffer (file : File) : Bool := file.type != .shm && file.fileName == framebufferName

def VMArea.backing (tables : Descriptors) (area : VMArea) (page : Nat) : Option (FileId × Option Nat) :=
  area.backingFile.map fun id => (id,
    if (tables.files id).showsFramebuffer then
      tables.framebuffer.map fun framebuffer => add64 framebuffer.address (sub64 page area.start)
    else some (add64 area.fileOffset (sub64 page area.start)))

def VMArea.view (tables : Descriptors) (area : VMArea) (page : Nat) : View :=
  ⟨area.prot, area.flags, area.backing tables page⟩

/-- The map that a list stands for. -/
def viewAt (tables : Descriptors) (vmas : List VMArea) (page : Nat) : Option View :=
  (vmas.find? fun area => area.start ≤ page && page < area.stop).map fun area => area.view tables page

/-- Rounded up to whole pages. -/
def alignUp (length : Nat) : Nat := (length + 4095) / 4096 * 4096

/-- An address in the part of a range that areas cover. -/
def Removed (vmas : List VMArea) (addr length pos : Nat) : Prop :=
  Covered vmas pos ∧ addr ≤ pos ∧ pos < addr + alignUp length

/-- The range is gone from the map and from the page tables, and nothing else is. -/
structure Subtracted (tables : Descriptors) (vmas vmas' : List VMArea) (memory memory' : PageMemory)
    (cr3 addr length : Nat) : Prop where
  map : ∀ page, page % pageSize = 0 → viewAt tables vmas' page =
    if addr ≤ page ∧ page < addr + alignUp length then none else viewAt tables vmas page
  gone : ∀ pos, Removed vmas addr length pos → memory'.getPhysicalAddress cr3 pos = 0
  kept : ∀ pos, Canonical pos → ¬Removed vmas addr length pos →
    memory'.getPhysicalAddress cr3 pos = memory.getPhysicalAddress cr3 pos

/-- A page is not part of a large page, and is not mapped to the frame at address zero. -/
structure Removable (memory : PageMemory) (cr3 page : Nat) : Prop where
  giga : memory.frameAt cr3 (pathOf page).tail.tail = none
  large : memory.frameAt cr3 (pathOf page).tail = none
  nonzero : memory.frameAt cr3 (pathOf page) ≠ some 0

/-- What `Sys_Munmap` needs: the rounded length does not wrap unless nothing is there to remove, no
framebuffer area loses its front but not its back, and the pages can be unmapped one by one. -/
structure CanSubtract (tables : Descriptors) (vmas : List VMArea) (memory : PageMemory) (cr3 addr length : Nat) : Prop where
  rounds : length ≤ 2 ^ 64 - 4096 ∨ ∀ area ∈ vmas, area.stop ≤ addr
  framebuffers : ∀ area ∈ vmas, ∀ id, area.backingFile = some id → (tables.files id).showsFramebuffer = true →
    tables.framebuffer.isSome → ¬(area.start < addr + alignUp length ∧ addr + alignUp length < area.stop)
  pages : ∀ page, page % pageSize = 0 → Removed vmas addr length page → Removable memory cr3 page

section

variable {tables : Descriptors} {vmas : List VMArea} {area : VMArea} {addr endAddr page : Nat}

theorem viewAt_eq_some (wf : WellFormed vmas) {view : View} :
    viewAt tables vmas page = some view ↔ ∃ area ∈ vmas, area.Has page ∧ area.view tables page = view := by
  unfold viewAt
  rw [map_eq_some_iff]
  constructor
  · rintro ⟨area, hf, eq⟩
    have h := find?_some hf
    simp only [Bool.and_eq_true, decide_eq_true_eq] at h
    exact ⟨area, mem_of_find?_eq_some hf, h, eq⟩
  · rintro ⟨area, mem, has, eq⟩
    have some_ : (vmas.find? fun area => area.start ≤ page && page < area.stop).isSome := by
      rw [find?_isSome]
      refine ⟨area, mem, ?_⟩
      simp only [Bool.and_eq_true, decide_eq_true_eq]
      exact has
    obtain ⟨other, hf⟩ := isSome_iff_exists.mp some_
    have h := find?_some hf
    simp only [Bool.and_eq_true, decide_eq_true_eq] at h
    rw [wf.unique (mem_of_find?_eq_some hf) mem h has] at hf
    exact ⟨area, hf, eq⟩

theorem viewAt_eq_none : viewAt tables vmas page = none ↔ ¬Covered vmas page := by
  unfold viewAt Covered
  rw [map_eq_none_iff, find?_eq_none]
  simp only [Bool.and_eq_true, decide_eq_true_eq, VMArea.Has]
  constructor
  · rintro none_ ⟨area, mem, has⟩
    exact none_ area mem has
  · intro none_ area mem has
    exact none_ ⟨area, mem, has⟩

theorem carve_pieces {piece : VMArea} (mem : piece ∈ (area.carve addr endAddr).kept) :
    piece.prot = area.prot ∧ piece.flags = area.flags ∧ piece.backingFile = area.backingFile ∧
      (piece.start = area.start ∧ piece.fileOffset = area.fileOffset ∨
        piece.start = endAddr ∧ area.start < endAddr ∧ endAddr < area.stop ∧ piece.stop = area.stop) := by
  unfold VMArea.carve at mem
  split at mem
  case isTrue =>
    obtain rfl := mem_singleton.mp mem
    exact ⟨rfl, rfl, rfl, .inl ⟨rfl, rfl⟩⟩
  case isFalse meets =>
    split at mem
    case isTrue => exact nomatch mem
    case isFalse partly =>
      split at mem
      case isTrue starts =>
        split at mem
        case isTrue ends =>
          rcases mem_cons.mp mem with rfl | mem
          · exact ⟨rfl, rfl, rfl, .inl ⟨rfl, rfl⟩⟩
          · grind
        case isFalse =>
          obtain rfl := mem_singleton.mp mem
          exact ⟨rfl, rfl, rfl, .inl ⟨rfl, rfl⟩⟩
      case isFalse =>
        split at mem
        case isTrue ends =>
          obtain rfl := mem_singleton.mp mem
          exact ⟨rfl, rfl, rfl, .inr ⟨rfl, by omega, ends, rfl⟩⟩
        case isFalse =>
          obtain rfl := mem_singleton.mp mem
          exact ⟨rfl, rfl, rfl, .inl ⟨rfl, rfl⟩⟩

/-- A framebuffer area that loses its front and keeps its back. -/
def VMArea.LosesFront (tables : Descriptors) (area : VMArea) (endAddr : Nat) : Prop :=
  ∃ id, area.backingFile = some id ∧ (tables.files id).showsFramebuffer = true ∧ tables.framebuffer.isSome = true ∧
    area.start < endAddr ∧ endAddr < area.stop

theorem carve_view (proper : area.Proper) (range : addr ≤ endAddr) (addrAligned : addr % pageSize = 0)
    (endAligned : endAddr % pageSize = 0) (whole : ¬area.LosesFront tables endAddr) {piece : VMArea}
    (mem : piece ∈ (area.carve addr endAddr).kept) (has : piece.Has page) :
    piece.view tables page = area.view tables page := by
  obtain ⟨prot, flags, file, start⟩ := carve_pieces mem
  have source := ((carve_spec proper range addrAligned endAligned).1 piece mem).source page has
  unfold VMArea.view VMArea.backing
  rw [prot, flags, file]
  unfold VMArea.source at source
  rw [file] at source
  cases backing : area.backingFile with
  | none => rfl
  | some id =>
    rw [backing] at source
    have off := congrArg Prod.snd (some.inj source)
    simp only at off
    simp only [map_some]
    by_cases screen : (tables.files id).showsFramebuffer = true
    · rw [if_pos screen, if_pos screen]
      rcases start with ⟨eq, _⟩ | ⟨_, low, high, _⟩
      · rw [eq]
      · cases framebuffer : tables.framebuffer with
        | none => rfl
        | some _ => exact absurd ⟨id, backing, screen, by rw [framebuffer]; rfl, low, high⟩ whole
    · rw [if_neg screen, if_neg screen, off]

theorem viewAt_munmap (wf : WellFormed vmas) (range : addr ≤ endAddr) (addrAligned : addr % pageSize = 0)
    (endAligned : endAddr % pageSize = 0) (whole : ∀ area ∈ vmas, ¬area.LosesFront tables endAddr) :
    viewAt tables (vmas.flatMap fun area => (area.carve addr endAddr).kept) page =
      if addr ≤ page ∧ page < endAddr then none else viewAt tables vmas page := by
  have wf' := (wf.munmap range addrAligned endAligned).1
  have spec := fun area mem => carve_spec (wf.proper area mem) range addrAligned endAligned
  split
  case isTrue inRange =>
    rw [viewAt_eq_none]
    rintro ⟨piece, mem, has⟩
    obtain ⟨area, areaMember, pieceMember⟩ := mem_flatMap.mp mem
    exact (((spec area areaMember).2.2 page).mp ⟨piece, pieceMember, has⟩).2 inRange
  case isFalse out =>
    apply Option.ext
    intro view
    rw [viewAt_eq_some wf', viewAt_eq_some wf]
    constructor
    · rintro ⟨piece, mem, has, rfl⟩
      obtain ⟨area, areaMember, pieceMember⟩ := mem_flatMap.mp mem
      refine ⟨area, areaMember, (((spec area areaMember).2.2 page).mp ⟨piece, pieceMember, has⟩).1, ?_⟩
      exact (carve_view (wf.proper area areaMember) range addrAligned endAligned (whole area areaMember) pieceMember has).symm
    · rintro ⟨area, areaMember, has, rfl⟩
      obtain ⟨piece, pieceMember, pieceHas⟩ := ((spec area areaMember).2.2 page).mpr ⟨has, out⟩
      refine ⟨piece, mem_flatMap.mpr ⟨area, areaMember, pieceMember⟩, pieceHas, ?_⟩
      exact carve_view (wf.proper area areaMember) range addrAligned endAligned (whole area areaMember) pieceMember pieceHas

theorem viewAt_losesFront (wf : WellFormed vmas) (range : addr < endAddr) (addrAligned : addr % pageSize = 0)
    (endAligned : endAddr % pageSize = 0) (mem : area ∈ vmas) (loses : area.LosesFront tables endAddr) :
    viewAt tables (vmas.flatMap fun area => (area.carve addr endAddr).kept) endAddr ≠ viewAt tables vmas endAddr := by
  obtain ⟨id, file, screen, some_, low, high⟩ := loses
  obtain ⟨framebuffer, isFramebuffer⟩ := isSome_iff_exists.mp some_
  have proper := wf.proper area mem
  have wf' := (wf.munmap (Nat.le_of_lt range) addrAligned endAligned).1
  obtain ⟨_, _, covers⟩ := carve_spec proper (Nat.le_of_lt range) addrAligned endAligned
  have has : area.Has endAddr := ⟨Nat.le_of_lt low, high⟩
  obtain ⟨piece, pieceMember, pieceHas⟩ := (covers endAddr).mpr ⟨has, fun both => Nat.lt_irrefl _ both.2⟩
  obtain ⟨_, _, pieceFile, starts⟩ := carve_pieces pieceMember
  have start : piece.start = endAddr := by
    rcases starts with ⟨eq, _⟩ | ⟨shifted, _⟩
    · -- a piece with the old start would reach over the range
      have inner : piece.Has (max area.start addr) := by
        have := pieceHas.2
        constructor <;> omega
      exact absurd ⟨Nat.le_max_right _ _, by omega⟩ ((covers _).mp ⟨piece, pieceMember, inner⟩).2
    · exact shifted
  intro eq
  have pre : viewAt tables vmas endAddr = some (area.view tables endAddr) :=
    (viewAt_eq_some wf).mpr ⟨area, mem, has, rfl⟩
  have after : viewAt tables (vmas.flatMap fun area => (area.carve addr endAddr).kept) endAddr =
      some (piece.view tables endAddr) :=
    (viewAt_eq_some wf').mpr ⟨piece, mem_flatMap.mpr ⟨area, mem, pieceMember⟩, pieceHas, rfl⟩
  have views := congrArg View.backing (some.inj (after.symm.trans (eq.trans pre)))
  simp only [VMArea.view, VMArea.backing, pieceFile, file, map_some, if_pos screen, isFramebuffer, Option.some.injEq,
    Prod.mk.injEq, true_and, start] at views
  have below := proper.below
  simp only [add64, sub64, userMaxAddr] at views below
  omega

end

section

variable {vmas : List VMArea} {addr endAddr cr3 page : Nat} {memory memory' : PageMemory} {paging paging' : Paging}

theorem applyEffects_munmap (wf : WellFormed vmas) (range : addr ≤ endAddr) (addrAligned : addr % pageSize = 0)
    (endAligned : endAddr % pageSize = 0) (branching : Branching paging.memory cr3)
    (applied : applyEffects cr3 paging (vmas.flatMap fun area => (area.carve addr endAddr).effects) = some paging') :
    Sweeps (fun page => ∃ area ∈ vmas, area.cut addr endAddr page) paging.memory paging'.memory cr3 := by
  induction vmas generalizing paging with
  | nil =>
    cases applied
    refine (Sweeps.refl branching).congr fun page => ⟨False.elim, ?_⟩
    rintro ⟨area, mem, _⟩
    exact nomatch mem
  | cons area rest ih =>
    rw [flatMap_cons, applyEffects_append] at applied
    obtain ⟨mid, h, later⟩ := bind_eq_some_iff.mp applied
    obtain ⟨proper, _, restWf⟩ := wellFormed_cons.mp wf
    have first : Sweeps (area.cut addr endAddr) paging.memory mid.memory cr3 := by
      rcases @applyEffects_carve cr3 addr endAddr area paging proper range with
        ⟨nothing, none_⟩ | ⟨start, stop, low, hin, high, starts, stops, pages, unmaps⟩
      · cases nothing.symm.trans h
        exact (Sweeps.refl branching).congr fun page => ⟨False.elim, none_ page⟩
      · have startAligned := proper.startAligned
        have stopAligned := proper.stopAligned
        have below := proper.below
        simp only [pageSize, userMaxAddr] at addrAligned endAligned startAligned stopAligned below
        refine (branching.unmapRange ?_ ?_ ?_ (unmaps.symm.trans h)).congr pages
        · simp only [pageSize]
          omega
        · simp only [pageSize]
          omega
        · omega
    refine (first.trans (ih restWf first.branching later)).congr fun page => ?_
    simp only [mem_cons, exists_eq_or_imp]

theorem frames_none (hal : page % pageSize = 0) (zero : memory.getPhysicalAddress cr3 (page + 1) = 0) :
    memory.frameAt cr3 (pathOf page).tail.tail = none ∧ memory.frameAt cr3 (pathOf page).tail = none ∧
      memory.frameAt cr3 (pathOf page) = none := by
  simp only [pageSize] at hal
  have path : pathOf (page + 1) = pathOf page := pathOf_congr (by omega)
  have low : ∀ bits, 12 ≤ bits → (page + 1) &&& (2 ^ bits - 1) ≠ 0 ∧ (page + 1) &&& (2 ^ bits - 1) < 2 ^ bits := by
    intro bits large
    rw [Nat.and_two_pow_sub_one_eq_mod]
    obtain ⟨more, rfl⟩ : ∃ more, bits = 12 + more := ⟨bits - 12, by omega⟩
    refine ⟨fun none_ => ?_, Nat.mod_lt _ (Nat.two_pow_pos _)⟩
    have divides : 2 ^ 12 ∣ page + 1 := Nat.dvd_trans (pow_dvd_pow 2 large) (Nat.dvd_of_mod_eq_zero none_)
    omega
  have nz : ∀ frame bits, frame < 2 ^ 52 → 12 ≤ bits → bits ≤ 30 → add64 frame ((page + 1) &&& (2 ^ bits - 1)) ≠ 0 := by
    intro frame bits lt large bound
    obtain ⟨pos, less⟩ := low bits large
    have power : 2 ^ bits ≤ 2 ^ 30 := Nat.pow_le_pow_right (by decide) bound
    rw [add64_eq (by omega)]
    omega
  rw [getPhysicalAddress_eq, resolve, path] at zero
  cases giga : memory.frameAt cr3 (pathOf page).tail.tail with
  | some frame =>
    rw [giga] at zero
    exact absurd zero (nz frame 30 (frameAt_small giga) (by decide) (by decide))
  | none =>
    rw [giga] at zero
    cases large : memory.frameAt cr3 (pathOf page).tail with
    | some frame =>
      rw [large] at zero
      exact absurd zero (nz frame 21 (frameAt_small large) (by decide) (by decide))
    | none =>
      rw [large] at zero
      cases lt : memory.frameAt cr3 (pathOf page) with
      | some frame =>
        rw [lt] at zero
        exact absurd zero (nz frame 12 (frameAt_small lt) (by decide) (by decide))
      | none => exact ⟨rfl, rfl, rfl⟩

theorem short_path {path : List Nat} (short : path.length < 4) (page : Nat) : path ≠ pathOf page := by
  rintro rfl
  exact absurd short (Nat.lt_irrefl 4)

theorem Sweeps.gone_iff {pages : Nat → Prop} (sweeps : Sweeps pages memory memory' cr3) (mem : pages page)
    (hal : page % pageSize = 0) :
    Removable memory cr3 page ↔ ∀ pos, pos / 4096 = page / 4096 → memory'.getPhysicalAddress cr3 pos = 0 := by
  have hin := indices_pathOf page
  have giga : memory'.frameAt cr3 (pathOf page).tail.tail = memory.frameAt cr3 (pathOf page).tail.tail :=
    sweeps.frameAt hin.tail.tail fun other _ eq => absurd eq (@short_path (pathOf page).tail.tail (by decide : 2 < 4) other)
  have large : memory'.frameAt cr3 (pathOf page).tail = memory.frameAt cr3 (pathOf page).tail :=
    sweeps.frameAt hin.tail fun other _ eq => absurd eq (@short_path (pathOf page).tail (by decide : 3 < 4) other)
  constructor
  · rintro ⟨noGiga, noLarge, nz⟩ pos eq
    have gone : memory'.frameAt cr3 (pathOf page) = none := congrArg (Option.map entryAddr) (sweeps.gone page mem nz)
    rw [getPhysicalAddress_eq, resolve, pathOf_congr eq, giga, large, noGiga, noLarge, gone]
  · intro zero
    simp only [pageSize] at hal
    obtain ⟨noGiga, noLarge, gone⟩ := @frames_none cr3 page memory' (by simpa only [pageSize] using hal)
      (zero (page + 1) (by omega))
    refine ⟨giga ▸ noGiga, large ▸ noLarge, fun atZero => ?_⟩
    rw [sweeps.frameAt hin fun _ _ _ => atZero, atZero] at gone
    cases gone

end

section

variable {tables : Descriptors} {vmas vmas' : List VMArea} {newOk : Nat → Bool} {effects : List MmEffect} {cr3 : Nat}
  {paging paging' : Paging}

theorem munmap_range {addr length : Nat} (addrSmall : addr < 2 ^ 64) (lengthSmall : length < 2 ^ 64)
    (hal : addr % pageSize = 0) (valid : isValidUserRange addr (pageAlign length) = true) :
    length ≤ 2 ^ 64 - 4096 ∧ add64 addr (pageAlign length) = addr + alignUp length ∧ addr + alignUp length ≤ userMaxAddr ∨
      2 ^ 64 - 4096 < length ∧ add64 addr (pageAlign length) = addr ∧ addr ≤ userMaxAddr ∧
        2 ^ 64 ≤ addr + alignUp length := by
  simp only [isValidUserRange, Bool.and_eq_true, Bool.not_eq_true', decide_eq_false_iff_not] at valid
  obtain ⟨⟨_, noWrap⟩, below⟩ := valid
  unfold alignUp
  by_cases large : 2 ^ 64 - 4096 < length
  · right
    rw [pageAlign_wrap large lengthSmall] at noWrap below ⊢
    simp only [add64, userMaxAddr, pageSize] at *
    omega
  · left
    rw [pageAlign_eq (by omega)] at noWrap below ⊢
    simp only [add64, userMaxAddr, pageSize] at *
    omega

theorem alignUp_aligned (length : Nat) : alignUp length % 4096 = 0 := Nat.mul_mod_left _ _

theorem Removed.page {addr length pos page : Nat} (wf : WellFormed vmas) (hal : addr % pageSize = 0)
    (removed : Removed vmas addr length pos) (eq : page / 4096 = pos / 4096) : Removed vmas addr length page := by
  obtain ⟨⟨area, mem, low, high⟩, above, below⟩ := removed
  have startAligned := (wf.proper area mem).startAligned
  have stopAligned := (wf.proper area mem).stopAligned
  have length_ := alignUp_aligned length
  simp only [pageSize] at hal startAligned stopAligned
  refine ⟨⟨area, mem, ?_, ?_⟩, ?_, ?_⟩ <;> omega

theorem removed_iff {addr length page endAddr : Nat} (hal : page % pageSize = 0)
    (ends : endAddr = addr + alignUp length ∨ endAddr = addr ∧ ∀ area ∈ vmas, area.stop ≤ addr) :
    Removed vmas addr length page ↔ ∃ area ∈ vmas, area.cut addr endAddr page := by
  rcases ends with rfl | ⟨rfl, stops⟩
  · constructor
    · rintro ⟨⟨area, mem, has⟩, above, below⟩
      exact ⟨area, mem, hal, has, above, below⟩
    · rintro ⟨area, mem, _, has, above, below⟩
      exact ⟨⟨area, mem, has⟩, above, below⟩
  · constructor
    · rintro ⟨⟨area, mem, has⟩, above, _⟩
      have := stops area mem
      have := has.2
      omega
    · rintro ⟨_, _, _, _, above, below⟩
      omega

/-- `Sys_Munmap` subtracts its range if and only if it can. -/
theorem munmap_subtracts_iff {addr length : UInt64} (wf : WellFormed vmas) (branching : Branching paging.memory cr3)
    (returned : munmap vmas addr.toNat length.toNat newOk = some (.ok (), vmas', effects))
    (applied : applyEffects cr3 paging effects = some paging') :
    Subtracted tables vmas vmas' paging.memory paging'.memory cr3 addr.toNat length.toNat ↔
      CanSubtract tables vmas paging.memory cr3 addr.toNat length.toNat := by
  have lengthSmall := length.toNat_lt
  have addrSmall := addr.toNat_lt
  generalize addr.toNat = addr at *
  generalize length.toNat = length at *
  rcases munmap_cases returned with ⟨refused, _⟩ | ⟨some_, hal, valid, rfl, rfl⟩
  · unfold munmap at returned
    rw [if_pos refused] at returned
    cases returned
  obtain ⟨endAligned, range⟩ := range_of_valid hal valid
  have ends := munmap_range addrSmall lengthSmall hal valid
  have sweeps := applyEffects_munmap wf range hal endAligned branching applied
  have positive : addr < addr + alignUp length := by
    unfold alignUp
    omega
  have lengthAligned := alignUp_aligned length
  generalize add64 addr (pageAlign length) = endAddr at *
  have wordAligned : addr % 4096 = 0 := hal
  constructor
  · intro subtracted
    have rounds : length ≤ 2 ^ 64 - 4096 ∨ ∀ area ∈ vmas, area.stop ≤ addr := by
      rcases ends with ⟨fits, _⟩ | ⟨_, isEnd, _, wraps⟩
      · exact .inl fits
      · refine .inr fun area mem => ?_
        by_contra beyond
        -- the area is left as it was, and its last page is in the range that was asked for
        have proper := wf.proper area mem
        have nonempty := proper.nonempty
        have stopAligned := proper.stopAligned
        have below := proper.below
        have startAligned := proper.startAligned
        simp only [pageSize, userMaxAddr] at startAligned stopAligned below
        obtain ⟨last, isLast⟩ : ∃ last, area.stop = last + 4096 := ⟨area.stop - 4096, by omega⟩
        have lastAligned : last % pageSize = 0 := by
          simp only [pageSize]
          omega
        have has : area.Has last := ⟨by omega, by omega⟩
        have inRange : addr ≤ last ∧ last < addr + alignUp length := ⟨by omega, by omega⟩
        have gone := subtracted.map last lastAligned
        rw [if_pos inRange, viewAt_eq_none] at gone
        obtain ⟨_, _, covers⟩ := carve_spec proper range hal endAligned
        obtain ⟨piece, pieceMember, pieceHas⟩ := (covers last).mpr ⟨has, fun both => by omega⟩
        exact gone ⟨piece, mem_flatMap.mpr ⟨area, mem, pieceMember⟩, pieceHas⟩
    refine ⟨rounds, ?_, fun page pageAligned removed => ?_⟩
    · rintro area mem id file screen some_ ⟨low, high⟩
      rcases ends with ⟨_, rfl, _⟩ | ⟨_, _, _, wraps⟩
      · have eq := subtracted.map (addr + alignUp length) endAligned
        rw [if_neg fun both => Nat.lt_irrefl _ both.2] at eq
        exact viewAt_losesFront wf positive hal endAligned mem ⟨id, file, screen, some_, low, high⟩ eq
      · have below := (wf.proper area mem).below
        simp only [userMaxAddr] at below
        omega
    · have cut : ∃ area ∈ vmas, area.cut addr endAddr page := by
        refine (removed_iff pageAligned ?_).mp removed
        rcases ends with ⟨_, eq, _⟩ | ⟨large, eq, _⟩
        · exact .inl eq
        · exact .inr ⟨eq, rounds.resolve_left (by omega)⟩
      exact (Sweeps.gone_iff sweeps cut pageAligned).mpr fun pos eq => subtracted.gone pos (removed.page wf hal eq)
  · rintro ⟨rounds, framebuffers, removable⟩
    have exactEnd : endAddr = addr + alignUp length ∨ endAddr = addr ∧ ∀ area ∈ vmas, area.stop ≤ addr := by
      rcases ends with ⟨_, eq, _⟩ | ⟨large, eq, _⟩
      · exact .inl eq
      · exact .inr ⟨eq, rounds.resolve_left (by omega)⟩
    have whole : ∀ area ∈ vmas, ¬area.LosesFront tables endAddr := by
      rintro area mem ⟨id, file, screen, some_, low, high⟩
      rcases exactEnd with isEnd | ⟨isEnd, stops⟩
      · grind
      · have := stops area mem
        omega
    refine ⟨fun page _ => ?_, fun pos removed => ?_, fun pos canonical notRemoved => ?_⟩
    · rw [viewAt_munmap wf range hal endAligned whole]
      rcases exactEnd with isEnd | ⟨isEnd, stops⟩
      · rw [isEnd]
      · have nothing : ¬(addr ≤ page ∧ page < endAddr) := fun both => by omega
        rw [if_neg nothing]
        split
        case isTrue inRange =>
          rw [viewAt_eq_none]
          rintro ⟨area, mem, has⟩
          have := stops area mem
          have := has.2
          omega
        case isFalse => rfl
    · have page : pos / 4096 * 4096 % pageSize = 0 := Nat.mul_mod_left _ _
      have mem := @Removed.page vmas addr length pos (pos / 4096 * 4096) wf hal removed (by omega)
      exact (Sweeps.gone_iff sweeps ((removed_iff page exactEnd).mp mem) page).mp (removable _ page mem) pos (by omega)
    · have hin := indices_pathOf pos
      have giga : paging'.memory.frameAt cr3 (pathOf pos).tail.tail = paging.memory.frameAt cr3 (pathOf pos).tail.tail :=
        sweeps.frameAt hin.tail.tail fun other _ eq =>
          absurd eq (@short_path (pathOf pos).tail.tail (by decide : 2 < 4) other)
      have large : paging'.memory.frameAt cr3 (pathOf pos).tail = paging.memory.frameAt cr3 (pathOf pos).tail :=
        sweeps.frameAt hin.tail fun other _ eq =>
          absurd eq (@short_path (pathOf pos).tail (by decide : 3 < 4) other)
      have h : paging'.memory.frameAt cr3 (pathOf pos) = paging.memory.frameAt cr3 (pathOf pos) := by
        refine sweeps.frameAt hin fun other cut eq => absurd ?_ notRemoved
        obtain ⟨area, mem, otherAligned, has, _⟩ := id cut
        have otherCanonical : Canonical other := by
          have below := (wf.proper area mem).below
          have := has.2
          simp only [userMaxAddr] at below
          exact .inl (by omega)
        exact ((removed_iff otherAligned exactEnd).mpr cut).page wf hal (page_of_pathOf canonical otherCanonical eq)
      rw [getPhysicalAddress_eq, getPhysicalAddress_eq]
      unfold resolve
      rw [giga, large, h]

def cutVmas : List VMArea := [⟨0x200000000, 0x200002000, 3, 1, some 0, 0⟩]

def cutTables (fileName : String) : Descriptors :=
  ⟨fun _ => none, fun _ => ⟨.devBlok, fileName, 1, 0, true⟩, fun _ => ⟨"", 0, 0, 0, false⟩, some ⟨0xE0000000, 4096, 2⟩⟩

def blankPaging : Paging := ⟨blankMemory, ⟨fun _ => ⟨0, 0⟩, fun _ => none, none, none⟩⟩

theorem cutVmas_wellFormed : WellFormed cutVmas := by
  refine ⟨forall_mem_singleton.mpr ?_, pairwise_singleton _ _⟩
  constructor <;> decide

theorem munmap_cutVmas : munmap cutVmas (0x200000000 : UInt64).toNat (0x1000 : UInt64).toNat (fun _ => true) =
    some (.ok (), [⟨0x200001000, 0x200002000, 3, 1, some 0, 0x1000⟩], [.unmapRange 0x200000000 0x1000 false]) := by
  decide +kernel

/-- The second page of a file stays where it is. -/
theorem munmap_subtracts_file :
    ∃ vmas' effects paging', munmap cutVmas (0x200000000 : UInt64).toNat (0x1000 : UInt64).toNat (fun _ => true) =
        some (.ok (), vmas', effects) ∧ applyEffects 0x1000 blankPaging effects = some paging' ∧
      Subtracted (cutTables "/dev/sda") cutVmas vmas' blankMemory paging'.memory 0x1000 (0x200000000 : UInt64).toNat
        (0x1000 : UInt64).toNat := by
  have some_ : (applyEffects 0x1000 blankPaging [.unmapRange 0x200000000 0x1000 false]).isSome = true := by decide +kernel
  obtain ⟨paging', applied⟩ := isSome_iff_exists.mp some_
  have branching : Branching blankPaging.memory 0x1000 := blankMemory_tree.once
  refine ⟨_, _, paging', munmap_cutVmas, applied,
    (munmap_subtracts_iff cutVmas_wellFormed branching munmap_cutVmas applied).mpr ⟨?_, ?_, ?_⟩⟩
  · exact .inl (by decide)
  · intro area _ id _ screen
    have plain : (⟨.devBlok, "/dev/sda", 1, 0, true⟩ : File).showsFramebuffer = false := by decide
    exact nomatch plain.symm.trans screen
  · intro page _ _
    have nothing : ∀ path, blankPaging.memory.frameAt 0x1000 path = none :=
      fun path => congrArg (Option.map entryAddr) (blankMemory_pageAt path)
    exact ⟨nothing _, nothing _, by rw [nothing]; nofun⟩

/-- The second page of the framebuffer becomes its first. -/
theorem munmap_moves_framebuffer :
    WellFormed cutVmas ∧ Branching blankMemory 0x1000 ∧
      ∃ vmas' effects paging', munmap cutVmas (0x200000000 : UInt64).toNat (0x1000 : UInt64).toNat (fun _ => true) =
          some (.ok (), vmas', effects) ∧ applyEffects 0x1000 blankPaging effects = some paging' ∧
        viewAt (cutTables "/dev/fb0") cutVmas 0x200001000 = some ⟨3, 1, some (0, some 0xE0001000)⟩ ∧
        viewAt (cutTables "/dev/fb0") vmas' 0x200001000 = some ⟨3, 1, some (0, some 0xE0000000)⟩ ∧
        ¬Subtracted (cutTables "/dev/fb0") cutVmas vmas' blankMemory paging'.memory 0x1000 (0x200000000 : UInt64).toNat
          (0x1000 : UInt64).toNat := by
  have some_ : (applyEffects 0x1000 blankPaging [.unmapRange 0x200000000 0x1000 false]).isSome = true := by decide +kernel
  obtain ⟨paging', applied⟩ := isSome_iff_exists.mp some_
  have pre : viewAt (cutTables "/dev/fb0") cutVmas 0x200001000 = some ⟨3, 1, some (0, some 0xE0001000)⟩ := by decide +kernel
  have after : viewAt (cutTables "/dev/fb0") [⟨0x200001000, 0x200002000, 3, 1, some 0, 0x1000⟩] 0x200001000 =
      some ⟨3, 1, some (0, some 0xE0000000)⟩ := by decide +kernel
  refine ⟨cutVmas_wellFormed, blankMemory_tree.once, _, _, paging', munmap_cutVmas, applied, pre, after, fun subtracted => ?_⟩
  have eq := subtracted.map 0x200001000 (by decide)
  exact absurd eq (by decide)

end

end RosKernel.Process
