import RosKernel.Memory.VirtualOwnership
import RosKernel.Process.Residency

/-! Frames that page faults take and `Sys_Munmap` gives back.

Every page that a fault makes resident takes a frame, and `Sys_Munmap` gives back those of
areas without a file only: the pages of a private file mapping are unmapped and their
frames stay allocated. As long as faults hit anonymous areas, mapping, touching and
unmapping leaves the set of data frames as it was, and gives no frame back twice.
-/

set_option autoImplicit false

namespace RosKernel.Process

open Library Memory Option

/-- Memory without a file is never backed by a shared frame. -/
def OwnPages (shared : Nat → Prop) (source : Option (FileId × Nat)) (frame : Nat) : Prop :=
  source = none → ¬ shared frame

/-- Page faults inside a mapping, `Sys_Mprotect` on parts of it, and stores by user code. -/
def UserCall.Touches (low high : Nat) : UserCall → Prop
  | .fault addr _ _ => low ≤ addr.toNat ∧ addr.toNat < high
  | .mprotect addr len _ _ => low ≤ addr.toNat ∧ add64 addr.toNat (pageAlign len.toNat) ≤ high
  | .store _ _ => True
  | _ => False

/-- Faults hit anonymous memory, and `SetFlags` finds no entry. -/
def UserSpace.Spares (cr3 : Nat) (state : UserSpace) : UserCall → Prop
  | .fault addr _ _ => Maps state.space.vmas addr.toNat none
  | .mprotect addr len _ _ =>
    NoEntryAtCr3 state.paging.memory cr3 addr.toNat (add64 addr.toNat (pageAlign len.toNat))
  | _ => True

def UserSpace.Within (cr3 low high : Nat) (state : UserSpace) (call : UserCall) : Prop :=
  call.Touches low high ∧ state.Spares cr3 call

/-- A page of the new mapping. -/
structure InMapping (low high page : Nat) : Prop where
  user : UserPage page
  low : low ≤ page
  high : page < high

/-- Since the mapping was made in the state `before`, exactly the frames of its pages are new. -/
structure UserSpace.Lent (roots shared : Nat → Prop) (cr3 : Nat) (area : VMArea) (before state : UserSpace) : Prop where
  resident : state.Resident roots shared (OwnPages shared) cr3
  maps : ∀ pos source, Maps state.space.vmas pos source ↔
    Maps before.space.vmas pos source ∨ area.Has pos ∧ area.source pos = source
  history : state.paging.memory.freed = before.paging.memory.freed
  inside : ∀ page frame, InMapping area.start area.stop page →
    state.paging.memory.walk cr3 (pathOf page) = some frame →
    area.source page = none ∧ ¬ before.paging.memory.Data roots frame
  data : ∀ frame, state.paging.memory.Data roots frame ↔ before.paging.memory.Data roots frame ∨
    ∃ page, InMapping area.start area.stop page ∧ state.paging.memory.walk cr3 (pathOf page) = some frame

section

variable {tables : Descriptors} {roots shared : Nat → Prop} {cr3 : Nat} {area : VMArea} {before state after : UserSpace}

section

variable (lent : before.Lent roots shared cr3 area state) (isRoot : roots cr3) (areaProper : area.Proper)
include lent isRoot areaProper

theorem UserSpace.Lent.fault {addr : UInt64} {write : Bool} {content : Nat → Nat}
    (within : state.Within cr3 area.start area.stop (.fault addr write content))
    (ht : state.step tables cr3 (.fault addr write content) = some after) : before.Lent roots shared cr3 area after := by
  obtain ⟨resident, maps, history, hin, data⟩ := lent
  obtain ⟨⟨low, high⟩, anonymous⟩ := within
  obtain ⟨memory', handled, rfl⟩ := map_eq_some_iff.mp ht
  have wf := resident.good.1
  -- The area that the handler finds is the anonymous one.
  have noFile : ∀ hf ∈ state.space.vmas, hf.Has addr.toNat → hf.backingFile = none := by
    intro hf mem has
    have eq := maps_unique wf ⟨hf, mem, has, rfl⟩ anonymous
    exact source_eq_none.mp eq
  have noTarget : ∀ hf ∈ state.space.vmas, hf.Has addr.toNat →
      faultTarget tables hf (pageMask addr.toNat) = some none := by
    intro hf mem has
    simp only [faultTarget, noFile hf mem has]
  obtain ⟨hf, mem, has, resolved⟩ := pageFaultHandler_resolved resident.order.tree resident.order.nonzero isRoot
    (fun hf mem => (wf.proper hf mem).below)
    (fun hf mem has physAddr target => by
      rw [noTarget hf mem has] at target
      exact nomatch target)
    handled
  have target := noTarget hf mem has
  obtain ⟨page, pageLow, pageHigh⟩ := userPage_pageMask (Nat.lt_of_lt_of_le has.2 (wf.proper hf mem).below)
  have pageIn : InMapping area.start area.stop (pageMask addr.toNat) := by
    refine ⟨page, ?_, by omega⟩
    have startAligned := areaProper.startAligned
    have hal := page.aligned
    simp only [pageSize] at startAligned hal pageHigh
    omega
  have resident' := resident.resolve isRoot mem has resolved
    (fun frame isTarget => by
      rw [target] at isTarget
      exact nomatch isTarget)
    (fun frame _ notShared _ => notShared)
  have source : area.source (pageMask addr.toNat) = none := by
    have areaHas : area.Has addr.toNat := ⟨low, high⟩
    have eq := maps_unique wf ((maps addr.toNat _).mpr (.inr ⟨areaHas, rfl⟩)) anonymous
    rw [source_eq_none] at eq ⊢
    exact eq
  obtain ⟨frame, walks, how⟩ := resolved.mapped
  have walkHere : ∀ other, UserPage other → memory'.walk cr3 (pathOf other) =
      if other = pageMask addr.toNat then some frame else state.paging.memory.walk cr3 (pathOf other) := by
    intro other user
    rw [walks cr3 (pathOf other) isRoot user.path rfl]
    by_cases eq : other = pageMask addr.toNat
    · rw [if_pos eq, eq, if_pos ⟨rfl, rfl⟩]
    · rw [if_neg eq, if_neg fun both => eq (user.inj page both.2)]
  rcases how with ⟨hr, sameData, _⟩ | ⟨isTarget, _⟩ | ⟨_, absent, _, fresh, newData⟩
  · have sameWalk : ∀ other, UserPage other →
        memory'.walk cr3 (pathOf other) = state.paging.memory.walk cr3 (pathOf other) := by
      intro other user
      rw [walkHere other user]
      split
      next eq => rw [eq, hr]
      next => rfl
    refine ⟨resident', maps, resolved.history.trans history, ?_, ?_⟩
    · intro other hf isIn hr'
      rw [sameWalk other isIn.user] at hr'
      exact hin other hf isIn hr'
    · intro other
      rw [sameData, data]
      refine or_congr_right (exists_congr fun other => and_congr_right fun isIn => ?_)
      rw [sameWalk other isIn.user]
  · rw [target] at isTarget
    exact nomatch isTarget
  · refine ⟨resident', maps, resolved.history.trans history, ?_, ?_⟩
    · intro other hf isIn hr'
      rw [walkHere other isIn.user] at hr'
      split at hr'
      next eq =>
        cases hr'
        rw [eq]
        exact ⟨source, fun old => fresh ((data frame).mpr (.inl old))⟩
      next => exact hin other hf isIn hr'
    · intro other
      rw [newData, data]
      constructor
      · rintro ((old | ⟨hf, isIn, hr'⟩) | rfl)
        · exact .inl old
        · refine .inr ⟨hf, isIn, ?_⟩
          rw [walkHere hf isIn.user, if_neg]
          · exact hr'
          · grind
        · grind
      · rintro (old | ⟨hf, isIn, hr'⟩)
        · exact .inl (.inl old)
        · rw [walkHere hf isIn.user] at hr'
          split at hr'
          · exact .inr (some.inj hr').symm
          · exact .inl (.inr ⟨hf, isIn, hr'⟩)

theorem UserSpace.Lent.step {call : UserCall} (within : state.Within cr3 area.start area.stop call)
    (ht : state.step tables cr3 call = some after) : before.Lent roots shared cr3 area after := by
  cases call with
  | mmap addr length prot flags fd off newOk => exact within.1.elim
  | munmap addr length newOk => exact within.1.elim
  | fault addr write content => exact lent.fault isRoot areaProper within ht
  | mprotect addr len prot newOk =>
    obtain ⟨resident, maps, history, hin, data⟩ := lent
    obtain ⟨⟨res, vmas', effects⟩, ret, applied⟩ := bind_eq_some_iff.mp ht
    obtain ⟨paging', done, rfl⟩ := map_eq_some_iff.mp applied
    obtain ⟨wf, lt⟩ := resident.good
    obtain rfl := mprotect_unchanged wf within.2 ret done
    obtain ⟨wf', eq⟩ := mprotect_maps wf ret
    refine ⟨⟨resident.order, ⟨wf', lt⟩, ?_⟩, ?_, history, hin, data⟩
    · intro page frame h hr
      obtain ⟨source, mapped, isBacked⟩ := resident.backed page frame h hr
      exact ⟨source, (eq page source).mpr mapped, isBacked⟩
    · grind
  | store addr value =>
    obtain ⟨resident, maps, history, hin, data⟩ := lent
    simp only [UserSpace.step] at ht
    split at ht
    · exact nomatch ht
    next valid =>
      cases ht
      rw [not_or, Nat.not_le] at valid
      obtain ⟨tree, eq⟩ := resident.store isRoot valid.1 valid.2 (addr.toNat % pageSize / 8) value
      refine ⟨resident.sameLeaves isRoot tree eq, maps, history, ?_, ?_⟩
      · intro page frame isIn hr
        rw [eq.leaves cr3 (pathOf page) isRoot isIn.user.path rfl] at hr
        exact hin page frame isIn hr
      · intro frame
        rw [eq.data, data]
        refine or_congr_right (exists_congr fun page => and_congr_right fun isIn => ?_)
        rw [eq.leaves cr3 (pathOf page) isRoot isIn.user.path rfl]

end

theorem UserSpace.Resident.lend {length prot flags off virtualAddr : Nat} {backingFile : Option FileId}
    {space' : AddressSpace} (resident : before.Resident roots shared (OwnPages shared) cr3)
    (fits : Fits before.space.vmas virtualAddr length) (positive : 0 < length) (rounds : length ≤ 2 ^ 64 - 4096)
    (ins : space'.vmas =
      (insertVmaSorted (mmapArea virtualAddr length prot flags backingFile off) before.space.vmas).1)
    (bounded : space'.mmapNextAddr < 2 ^ 64) :
    before.Lent roots shared cr3
      ⟨virtualAddr, virtualAddr + (length + 4095) / 4096 * 4096, prot, flags, backingFile, off⟩
      ⟨before.paging, space'⟩ := by
  obtain ⟨order, ⟨wf, lt⟩, backed⟩ := resident
  have insertion := fits.inserted prot flags off backingFile positive rounds wf
  rw [← ins] at insertion
  have absent : ∀ page frame, InMapping virtualAddr (virtualAddr + (length + 4095) / 4096 * 4096) page →
      before.paging.memory.walk cr3 (pathOf page) ≠ some frame := by
    intro page frame isIn hr
    obtain ⟨_, ⟨area, mem, has, _⟩, _⟩ := backed page frame isIn.user hr
    have free := fits.free area mem
    have low := isIn.low
    have high := isIn.high
    simp only [VMArea.Has] at has
    omega
  refine ⟨⟨order, ⟨insertion.shape, bounded⟩, ?_⟩, ?_, rfl, ?_, ?_⟩
  · intro page frame h hr
    obtain ⟨source, mapped, isBacked⟩ := backed page frame h hr
    exact ⟨source, (insertion.maps page source).mpr (maps_cons.mpr (.inr mapped)), isBacked⟩
  · intro pos source
    rw [insertion.maps, maps_cons, or_comm]
  · grind
  · intro frame
    constructor
    · exact .inl
    · rintro (old | ⟨page, isIn, hr⟩)
      · exact old
      · exact absurd hr (absent page frame isIn)

/-- The range of a call: it covers the mapping and meets no area that was there before. -/
structure Covers (low high : Nat) (vmas : List VMArea) (addr length : Nat) : Prop where
  positive : length ≠ 0
  aligned : addr % pageSize = 0
  valid : isValidUserRange addr (pageAlign length) = true
  low : addr ≤ low
  high : high ≤ add64 addr (pageAlign length)
  apart : ∀ other ∈ vmas, other.stop ≤ addr ∨ add64 addr (pageAlign length) ≤ other.start

section

variable (lent : before.Lent roots shared cr3 area state) (isRoot : roots cr3)
include lent isRoot

theorem UserSpace.Lent.munmap {addr length : UInt64} {newOk : Nat → Bool}
    (covers : Covers area.start area.stop before.space.vmas addr.toNat length.toNat)
    (ht : state.step tables cr3 (.munmap addr length newOk) = some after) :
    (∀ frame, after.paging.memory.Data roots frame ↔ before.paging.memory.Data roots frame) ∧
      ∃ log, Frees state.paging.memory after.paging.memory log := by
  obtain ⟨resident, maps, history, hin, data⟩ := lent
  obtain ⟨⟨res, vmas', effects⟩, ret, applied⟩ := bind_eq_some_iff.mp ht
  obtain ⟨paging', done, rfl⟩ := map_eq_some_iff.mp applied
  obtain ⟨paging'', done', _, outcome⟩ := resident.munmap isRoot (fun _ own => own rfl) ret
  rw [done] at done'
  cases done'
  rcases outcome with ⟨refused, _⟩ | ⟨_, _, _, cleared⟩
  · exact absurd refused (by simp [covers.positive, covers.aligned, covers.valid])
  · refine ⟨fun frame => ?_, cleared.frees⟩
    rw [cleared.data, data]
    -- A page of the range is in no area but the mapping.
    have only : ∀ page, cutFrames state.space.vmas addr.toNat (add64 addr.toNat (pageAlign length.toNat)) page →
        InMapping area.start area.stop page := by
      intro page cut
      obtain ⟨other, mem, _, isCut⟩ := cut
      have user := VMArea.cut_user (resident.good.1.proper other mem) isCut
      obtain ⟨_, has, low, high⟩ := isCut
      cases (maps page _).mp ⟨other, mem, has, rfl⟩ with
      | inl old =>
        obtain ⟨hf, foundMember, foundHas, _⟩ := old
        have ne := covers.apart hf foundMember
        simp only [VMArea.Has] at foundHas
        omega
      | inr new => exact ⟨user, new.1.1, new.1.2⟩
    constructor
    · rintro ⟨old | ⟨page, isIn, hr⟩, kept⟩
      · exact old
      · have source := (hin page frame isIn hr).1
        refine absurd ⟨page, cutFrames_iff.mpr ⟨isIn.user.aligned, ?_, ?_, ?_⟩, hr⟩ kept
        · exact (maps page none).mpr (.inr ⟨⟨isIn.low, isIn.high⟩, source⟩)
        · exact Nat.le_trans covers.low isIn.low
        · exact Nat.lt_of_lt_of_le isIn.high covers.high
    · grind

theorem UserSpace.Lent.munmap_isSome {addr length : UInt64} {newOk : Nat → Bool} (enough : ∀ news, newOk news = true) :
    (state.step tables cr3 (.munmap addr length newOk)).isSome := by
  have called : (Process.munmap state.space.vmas addr.toNat length.toNat newOk).isSome := by
    unfold Process.munmap
    split
    · rfl
    · rw [isSome_map]
      exact munmapPass_isSome enough 0
  obtain ⟨⟨res, vmas', effects⟩, ret⟩ := isSome_iff_exists.mp called
  obtain ⟨paging', done, _⟩ := lent.resident.munmap isRoot (fun _ own => own rfl) ret
  simp only [UserSpace.step, ret, bind_some, done, map_some, isSome_some]

end

end

/-- After any sequence of page faults in anonymous memory of a new mapping, with `Sys_Mprotect` on parts of it
in between, unmapping it returns, leaves the data frames that there were before the mapping was made, and
gives back only frames that are in use, each of them once. -/
theorem mapping_conserves_frames {tables : Descriptors} {cr3 : Nat} {roots shared : Nat → Prop} (isRoot : roots cr3)
    {before state : UserSpace} (resident : before.Resident roots shared (OwnPages shared) cr3)
    (addr length prot flags fd offset : UInt64) (newOk : Nat → Bool) (rounds : length.toNat ≤ 2 ^ 64 - 4096)
    {virtualAddr : Nat} {space' : AddressSpace} {effects : List MmEffect}
    (mapped : sysMMap tables before.space addr.toNat length.toNat prot.toNat flags.toNat fd.toNat offset.toNat newOk =
      some (.ok virtualAddr, space', effects))
    (reached : Reaches (UserSpace.step tables cr3)
      (UserSpace.Within cr3 virtualAddr (virtualAddr + (length.toNat + 4095) / 4096 * 4096))
      ⟨before.paging, space'⟩ state)
    (unmapAddr unmapLength : UInt64) (unmapOk : Nat → Bool)
    (covers : Covers virtualAddr (virtualAddr + (length.toNat + 4095) / 4096 * 4096) before.space.vmas
      unmapAddr.toNat unmapLength.toNat) :
    ((∀ news, unmapOk news = true) →
      (state.step tables cr3 (.munmap unmapAddr unmapLength unmapOk)).isSome) ∧
    ∀ after, state.step tables cr3 (.munmap unmapAddr unmapLength unmapOk) = some after →
      (∀ frame, after.paging.memory.Data roots frame ↔ before.paging.memory.Data roots frame) ∧
      ∃ log, after.paging.memory.freed = before.paging.memory.freed ++ log ∧ log.Nodup ∧
        ∀ frame ∈ log, state.paging.memory.InUse frame := by
  obtain ⟨wf, lt⟩ := resident.good
  rcases sysMMap_cases wf lt addr.toNat_lt rounds mapped with
    ⟨_, failed, _⟩ | ⟨_, backingFile, eq, _, fits, pos, ins, bounded⟩
  · exact nomatch failed
  · cases eq
    have start := resident.lend fits pos rounds ins bounded
    have proper : VMArea.Proper ⟨virtualAddr, virtualAddr + (length.toNat + 4095) / 4096 * 4096, prot.toNat,
        flags.toNat, backingFile, offset.toNat⟩ := by
      have hal := fits.aligned
      have below := fits.below
      simp only [pageSize] at hal
      refine ⟨?_, hal, ?_, below⟩
      · simp only
        omega
      · simp only [pageSize]
        omega
    have lent := reached.invariant (before.Lent roots shared cr3 _) start
      fun _ _ _ lent within ht => lent.step isRoot proper within ht
    refine ⟨lent.munmap_isSome isRoot, fun after ht => ?_⟩
    obtain ⟨data, log, frees⟩ := lent.munmap isRoot covers ht
    refine ⟨data, log, ?_, frees.nodup, frees.used⟩
    rw [frees.history, lent.history]

/-- Descriptor 3 is a regular file. -/
def fileTables : Descriptors where
  fdTable fd := if fd = 3 then some 0 else none
  files _ := ⟨.normal, "f", 1, 0, true⟩
  regions _ := ⟨"", 0, 0, 0, false⟩
  framebuffer := none

/-- An address space with an empty top-level table at `0x100000`, and no other frame in use. -/
def untouched : UserSpace where
  paging := ⟨⟨⟨fun byte => if byte = 0 then 1 else 0, fun _ => 0⟩, fun _ _ => 0, []⟩, virtual 0 none⟩
  space := execveSpace 0x400000 0x401000 fun _ => true

theorem untouched_resident :
    untouched.Resident (· = 0x100000) (fun _ => False) (OwnPages fun _ => False) 0x100000 := by
  obtain ⟨node, spare, layout, _⟩ := virtual_layout 0 none
  exact resident_empty ⟨0, by decide, by decide, by decide⟩ not_false not_false
    (fun _ _ => (by decide : present 0 = false)) (fun _ isShared => isShared.elim) ⟨[node], spare, layout⟩
    (execveSpace_good (by constructor <;> decide) _)

/-- The area list after one page was mapped. -/
def withPage (flags : Nat) (backingFile : Option FileId) : AddressSpace :=
  ⟨[⟨0x400000, 0x401000, 7, 2, none, 0⟩, ⟨0x200000000, 0x200001000, 3, flags, backingFile, 0⟩,
    ⟨0x7FFFFFFF6000, 0x7FFFFFFFE000, 3, 0x22, none, 0⟩], 0x200001000⟩

theorem withPage_covers :
    Covers 0x200000000 0x200001000 untouched.space.vmas (0x200000000 : UInt64).toNat (0x1000 : UInt64).toNat := by
  constructor <;> decide

theorem mapping_conserves_frames_anonymous :
    ∃ touched after : UserSpace,
      UserSpace.step fileTables 0x100000 ⟨untouched.paging, withPage 0x22 none⟩ (.fault 0x200000000 true fun _ => 0) =
        some touched ∧
      touched.step fileTables 0x100000 (.munmap 0x200000000 0x1000 fun _ => true) = some after ∧
      ∀ frame, after.paging.memory.Data (· = 0x100000) frame ↔ untouched.paging.memory.Data (· = 0x100000) frame := by
  have faulted : (UserSpace.step fileTables 0x100000 ⟨untouched.paging, withPage 0x22 none⟩
      (.fault 0x200000000 true fun _ => 0)).isSome := by
    decide +kernel
  obtain ⟨touched, ht⟩ := isSome_iff_exists.mp faulted
  have anonymous : Maps (withPage 0x22 none).vmas (0x200000000 : UInt64).toNat none :=
    ⟨⟨0x200000000, 0x200001000, 3, 0x22, none, 0⟩, by decide, ⟨by decide, by decide⟩, rfl⟩
  have hr : Reaches (UserSpace.step fileTables 0x100000)
      (UserSpace.Within 0x100000 0x200000000 0x200001000) ⟨untouched.paging, withPage 0x22 none⟩ touched :=
    .next (.fault 0x200000000 true fun _ => 0) .start ⟨⟨by decide, by decide⟩, anonymous⟩ ht
  have mapped : sysMMap fileTables untouched.space (0 : UInt64).toNat (0x1000 : UInt64).toNat (3 : UInt64).toNat
      (0x22 : UInt64).toNat (0 : UInt64).toNat (0 : UInt64).toNat (fun _ => true) =
      some (.ok 0x200000000, withPage 0x22 none, []) := by
    decide +kernel
  obtain ⟨ret, conserved⟩ := @mapping_conserves_frames fileTables 0x100000 (· = 0x100000) (fun _ => False) rfl
    untouched touched untouched_resident 0 0x1000 3 0x22 0 0 (fun _ => true) (by decide) _ _ _ mapped hr
    0x200000000 0x1000 (fun _ => true) withPage_covers
  obtain ⟨after, unmapped⟩ := isSome_iff_exists.mp (ret fun _ => rfl)
  exact ⟨touched, after, ht, unmapped, (conserved after unmapped).1⟩

/-- After a page of a private file mapping was read and unmapped, its frame is still allocated. -/
theorem file_frame_leaked :
    ¬ ∀ (tables : Descriptors) (cr3 : Nat) (roots shared : Nat → Prop) (before state after : UserSpace)
        (addr length prot flags fd offset : UInt64) (newOk : Nat → Bool) (virtualAddr : Nat) (space' : AddressSpace)
        (effects : List MmEffect) (unmapAddr unmapLength : UInt64) (unmapOk : Nat → Bool),
      roots cr3 → before.Resident roots shared (OwnPages shared) cr3 →
      sysMMap tables before.space addr.toNat length.toNat prot.toNat flags.toNat fd.toNat offset.toNat newOk =
        some (.ok virtualAddr, space', effects) →
      Reaches (UserSpace.step tables cr3)
        (fun _ call => call.Touches virtualAddr (virtualAddr + (length.toNat + 4095) / 4096 * 4096))
        ⟨before.paging, space'⟩ state →
      Covers virtualAddr (virtualAddr + (length.toNat + 4095) / 4096 * 4096) before.space.vmas
        unmapAddr.toNat unmapLength.toNat →
      state.step tables cr3 (.munmap unmapAddr unmapLength unmapOk) = some after →
      ∀ frame, after.paging.memory.Data roots frame ↔ before.paging.memory.Data roots frame := by
  intro claimed
  have mapped : sysMMap fileTables untouched.space (0 : UInt64).toNat (0x1000 : UInt64).toNat (3 : UInt64).toNat
      (2 : UInt64).toNat (3 : UInt64).toNat (0 : UInt64).toNat (fun _ => true) =
      some (.ok 0x200000000, withPage 2 (some 0), [.retain 0]) := by
    decide +kernel
  have run : ((UserSpace.step fileTables 0x100000 ⟨untouched.paging, withPage 2 (some 0)⟩
      (.fault 0x200000000 false fun _ => 0)).bind fun touched =>
        (touched.step fileTables 0x100000 (.munmap 0x200000000 0x1000 fun _ => true)).map fun after =>
          (after.paging.memory.frames.used 1,
            (List.range 256).all fun i => !present (after.paging.memory.words 0x100000 i))) = some (true, true) := by
    decide +kernel
  obtain ⟨touched, faulted, rest⟩ := bind_eq_some_iff.mp run
  obtain ⟨after, unmapped, left⟩ := map_eq_some_iff.mp rest
  obtain ⟨used, empty⟩ := Prod.mk.inj left
  have hr : Reaches (UserSpace.step fileTables 0x100000)
      (fun _ call => call.Touches 0x200000000 0x200001000) ⟨untouched.paging, withPage 2 (some 0)⟩ touched :=
    .next (.fault 0x200000000 false fun _ => 0) .start ⟨by decide, by decide⟩ faulted
  have conserved := claimed fileTables 0x100000 (· = 0x100000) (fun _ => False) untouched touched after 0 0x1000 3 2 3 0
    (fun _ => true) _ _ _ 0x200000000 0x1000 (fun _ => true) rfl untouched_resident mapped hr withPage_covers unmapped
  -- The table at `0x100000` is empty again, so `0x101000` is no table, and it was free before.
  have leaked : after.paging.memory.Data (· = 0x100000) 0x101000 := by
    refine ⟨⟨1, by decide, by decide, used⟩, ?_⟩
    rintro _ path rfl user _ hr
    by_cases top : path = []
    · subst top
      exact absurd (some.inj hr) (by decide)
    · rw [walk_empty (fun i bound => by simpa using List.all_eq_true.mp empty i (List.mem_range.mpr bound)) user top]
        at hr
      exact nomatch hr
  obtain ⟨⟨k, _, eq, before⟩, _⟩ := (conserved 0x101000).mp leaked
  have first : k = 1 := by
    simp only [physBase, pageSize] at eq
    omega
  rw [first] at before
  exact absurd before (by decide)

end RosKernel.Process
