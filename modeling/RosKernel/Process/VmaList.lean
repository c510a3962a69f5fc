import RosKernel.Memory.Word

/-! A task's virtual memory areas and the calls that edit their list (`syscall/mm.cpp`).

Each call computes its new list together with the effects it has elsewhere, in the order it has them: reference counts of
backing files, unmapped ranges and changed page protections. None of these feeds back into the list. `new` may fail; the
argument `newOk` says whether the call's next allocation succeeds.

Areas are aligned, non-empty, in order and disjoint. Cutting and joining them leaves which addresses are mapped, and to which
byte of which file, as it was for what remains.
-/

set_option autoImplicit false

namespace RosKernel.Process

open Memory List Option

abbrev FileId := Nat

/-- `Start` and `End` are `start` and `stop`; the list order stands for `Next`. -/
structure VMArea where
  start : Nat
  stop : Nat
  prot : Nat
  flags : Nat
  backingFile : Option FileId
  fileOffset : Nat
  deriving DecidableEq, Repr

inductive MmEffect where
  | retain (file : FileId)
  | release (file : FileId)
  | unmapRange (start size : Nat) (freePhysical : Bool)
  | updateProt (start len prot : Nat)
  deriving DecidableEq, Repr

def rosInvalid : Int := -2

def rosNoMem : Int := -3

def userMaxAddr : Nat := 0x00007FFFFFFFF000

def userHeapStart : Nat := 0x0000000200000000

def userStackTop : Nat := 0x00007FFFFFFFE000

def userStackPages : Nat := 8

def isValidUserRange (start len : Nat) : Bool :=
  start != 0 && !(add64 start len < start) && !(userMaxAddr < add64 start len)

/-- `SplitVMA` once the address is known to lie inside the area. -/
def VMArea.splitLeft (target : VMArea) (addr : Nat) : VMArea := { target with stop := addr }

def VMArea.splitRight (target : VMArea) (addr : Nat) : VMArea := { target with
  start := addr
  fileOffset := if target.backingFile.isSome then add64 target.fileOffset (sub64 addr target.start)
    else target.fileOffset }

def VMArea.retains (area : VMArea) : List MmEffect := (area.backingFile.map MmEffect.retain).toList

def VMArea.releases (area : VMArea) : List MmEffect := (area.backingFile.map MmEffect.release).toList

/-- The conditions of `TryMergeNext`. -/
def VMArea.mergeable (current next : VMArea) : Bool :=
  current.stop == next.start && current.prot == next.prot && current.flags == next.flags &&
    current.backingFile == next.backingFile &&
    (current.backingFile.isNone ||
      add64 current.fileOffset (sub64 current.stop current.start) == next.fileOffset)

def tryMergeNext (current : VMArea) : List VMArea → VMArea × List VMArea
  | [] => (current, [])
  | next :: rest =>
    if current.mergeable next then ({ current with stop := next.stop }, rest) else (current, next :: rest)

/-- The part of `InsertVmaSorted` that walks the list from `iter` on. The second
component is what `NewVma->End` reads afterwards: joining it to its left neighbour
deletes the node but leaves that field. -/
def insertAfter (new : VMArea) (iter : VMArea) : List VMArea → List VMArea × Nat
  | [] =>
    let (iter, rest) := tryMergeNext iter [new]
    (iter :: rest, new.stop)
  | next :: rest =>
    if next.start < new.start then
      let (tail, stop) := insertAfter new next rest
      (iter :: tail, stop)
    else
      let (new, rest) := tryMergeNext new (next :: rest)
      let (iter, rest) := tryMergeNext iter (new :: rest)
      (iter :: rest, new.stop)

def insertVmaSorted (new : VMArea) : List VMArea → List VMArea × Nat
  | [] => ([new], new.stop)
  | head :: rest =>
    if new.start < head.start then
      let (new, rest) := tryMergeNext new (head :: rest)
      (new :: rest, new.stop)
    else insertAfter new head rest

def overlaps (start stop : Nat) (area : VMArea) : Bool := start < area.stop && area.start < stop

/-- The loop of `FindFreeRegion`: each collision moves on to the end of an area. -/
def findFreeLoop (vmas : List VMArea) (searchLimit length : Nat) : Nat → Nat → Option Nat
  | fuel, startAddr =>
    if searchLimit < startAddr then some 0
    else
      match vmas.find? (overlaps startAddr (add64 startAddr length)) with
      | none => some startAddr
      | some area =>
        match fuel with
        | 0 => none
        | fuel + 1 =>
          findFreeLoop vmas searchLimit length fuel (if area.stop % pageSize = 0 then area.stop else pageAlign area.stop)

def findFreeRegion (vmas : List VMArea) (mmapNextAddr length : Nat) : Option Nat :=
  let startAddr := if mmapNextAddr % pageSize = 0 then mmapNextAddr else pageAlign mmapNextAddr
  let startAddr := if startAddr < userHeapStart then userHeapStart else startAddr
  findFreeLoop vmas (sub64 userMaxAddr length) length vmas.length startAddr

/-- The address checks of `Sys_MMap`; `none` when the search does not end. -/
def mmapAddress (vmas : List VMArea) (mmapNextAddr addr length : Nat) : Option (Except Int Nat) :=
  let alignedLength := pageAlign length
  if length = 0 then some (.error rosInvalid)
  else if addr = 0 then
    match findFreeRegion vmas mmapNextAddr length with
    | none => none
    | some virtualAddr =>
      if virtualAddr = 0 then some (.error rosNoMem)
      else if isValidUserRange virtualAddr alignedLength then some (.ok virtualAddr)
      else some (.error rosNoMem)
  else if addr % pageSize ≠ 0 then some (.error rosInvalid)
  else if !isValidUserRange addr alignedLength then some (.error rosInvalid)
  else if vmas.any (overlaps addr (add64 addr alignedLength)) then some (.error rosInvalid)
  else some (.ok addr)

/-- What the loop of `Sys_Munmap` does with one area: what is left of it, the effects,
and whether a hole was punched, which takes a new area for the right part. -/
structure Carved where
  kept : List VMArea
  effects : List MmEffect
  punched : Bool

def VMArea.carve (curr : VMArea) (addr endAddr : Nat) : Carved :=
  let isAnon := curr.backingFile.isNone
  if curr.stop ≤ addr ∨ endAddr ≤ curr.start then ⟨[curr], [], false⟩
  else if addr ≤ curr.start ∧ curr.stop ≤ endAddr then
    ⟨[], .unmapRange curr.start (sub64 curr.stop curr.start) isAnon :: curr.releases, false⟩
  else if curr.start < addr then
    if endAddr < curr.stop then
      -- The right part takes no reference of its own, and its offset moves even without a file.
      let right := { curr with
        start := endAddr
        fileOffset := add64 curr.fileOffset (sub64 endAddr curr.start) }
      ⟨[{ curr with stop := addr }, right], [.unmapRange addr (sub64 endAddr addr) isAnon], true⟩
    else ⟨[{ curr with stop := addr }], [.unmapRange addr (sub64 curr.stop addr) isAnon], false⟩
  else if endAddr < curr.stop then
    ⟨[{ curr with
      start := endAddr
      fileOffset := if curr.backingFile.isSome then add64 curr.fileOffset (sub64 endAddr curr.start)
        else curr.fileOffset }], [.unmapRange curr.start (sub64 endAddr curr.start) isAnon], false⟩
  else ⟨[curr], [], false⟩

/-- One pass of `Sys_Munmap` over the list; `none` when a hole is punched without
memory for the right part, which is then written through a null pointer. A right
part starts behind the range, so the loop passes over it. -/
def munmapPass (addr endAddr : Nat) (newOk : Nat → Bool) : Nat → List VMArea → Option (List VMArea × List MmEffect)
  | _, [] => some ([], [])
  | news, curr :: rest =>
    let carved := curr.carve addr endAddr
    if carved.punched && !newOk news then none
    else
      (munmapPass addr endAddr newOk (if carved.punched then news + 1 else news) rest).map
        fun (tail, later) => (carved.kept ++ tail, carved.effects ++ later)

def munmap (vmas : List VMArea) (addr length : Nat) (newOk : Nat → Bool) :
    Option (Except Int Unit × List VMArea × List MmEffect) :=
  if length = 0 ∨ addr % pageSize ≠ 0 ∨ isValidUserRange addr (pageAlign length) = false then
    some (.error rosInvalid, vmas, [])
  else
    (munmapPass addr (add64 addr (pageAlign length)) newOk 0 vmas).map fun (vmas, effects) => (.ok (), vmas, effects)

/-- The list around the first area that contains `addr`. -/
def findAt (addr : Nat) : List VMArea → Option (List VMArea × VMArea × List VMArea)
  | [] => none
  | area :: rest =>
    if area.start ≤ addr ∧ addr < area.stop then some ([], area, rest)
    else (findAt addr rest).map fun (before, found, after) => (area :: before, found, after)

/-- The area whose protection is set: it ends where the range ends. -/
def protectTarget (endAddr prot : Nat) (found : VMArea) : VMArea :=
  if endAddr < found.stop then { found.splitLeft endAddr with prot := prot } else { found with prot := prot }

def protectRest (endAddr : Nat) (found : VMArea) (after : List VMArea) : List VMArea :=
  if endAddr < found.stop then found.splitRight endAddr :: after else after

def mprotectLoop (endAddr prot : Nat) (newOk : Nat → Bool) :
    Nat → Nat → Nat → List VMArea → Option (Except Int Unit × List VMArea × List MmEffect)
  | fuel, news, scanAddr, vmas =>
    if endAddr ≤ scanAddr then some (.ok (), vmas, [])
    else
      match findAt scanAddr vmas with
      | none => some (.error rosNoMem, vmas, [])
      | some (before, found, after) =>
        match fuel with
        | 0 => none
        | fuel + 1 =>
          if found.start < scanAddr then
            if newOk news then
              (mprotectLoop endAddr prot newOk fuel (news + 1) scanAddr
                (before ++ found.splitLeft scanAddr :: found.splitRight scanAddr :: after)).map
                fun (result, vmas, effects) => (result, vmas, found.retains ++ effects)
            else some (.error rosNoMem, vmas, [])
          else if endAddr < found.stop && !newOk news then some (.error rosNoMem, vmas, [])
          else
            let target := protectTarget endAddr prot found
            let merged := tryMergeNext target (protectRest endAddr found after)
            (mprotectLoop endAddr prot newOk fuel (if endAddr < found.stop then news + 1 else news) merged.1.stop
              (before ++ merged.1 :: merged.2)).map
              fun (result, vmas, effects) => (result, vmas, (if endAddr < found.stop then found.retains else []) ++
                .updateProt target.start (sub64 target.stop target.start) prot :: effects)

def mprotect (vmas : List VMArea) (addr len prot : Nat) (newOk : Nat → Bool) :
    Option (Except Int Unit × List VMArea × List MmEffect) :=
  if len = 0 then some (.ok (), vmas, [])
  else if addr % pageSize ≠ 0 ∨ isValidUserRange addr (pageAlign len) = false then
    some (.error rosInvalid, vmas, [])
  else mprotectLoop (add64 addr (pageAlign len)) prot newOk (2 * vmas.length + 2) 0 addr vmas

def VMArea.Has (area : VMArea) (pos : Nat) : Prop := area.start ≤ pos ∧ pos < area.stop

/-- The file and the offset in it that back the address `pos` of the area. -/
def VMArea.source (area : VMArea) (pos : Nat) : Option (FileId × Nat) :=
  area.backingFile.map fun file => (file, add64 area.fileOffset (sub64 pos area.start))

/-- The list maps `pos`, backed by `source`. -/
def Maps (vmas : List VMArea) (pos : Nat) (source : Option (FileId × Nat)) : Prop :=
  ∃ area ∈ vmas, area.Has pos ∧ area.source pos = source

structure VMArea.Proper (area : VMArea) : Prop where
  nonempty : area.start < area.stop
  startAligned : area.start % pageSize = 0
  stopAligned : area.stop % pageSize = 0
  below : area.stop ≤ userMaxAddr

structure WellFormed (vmas : List VMArea) : Prop where
  proper : ∀ area ∈ vmas, area.Proper
  order : vmas.Pairwise fun left right => left.stop ≤ right.start

def Covered (vmas : List VMArea) (pos : Nat) : Prop := ∃ area ∈ vmas, area.Has pos

section

variable {before after vmas : List VMArea} {area : VMArea} {pos : Nat} {source : Option (FileId × Nat)}

theorem maps_append : Maps (before ++ after) pos source ↔ Maps before pos source ∨ Maps after pos source := by
  simp only [Maps, mem_append, or_and_right, exists_or]

theorem maps_cons : Maps (area :: vmas) pos source ↔
    (area.Has pos ∧ area.source pos = source) ∨ Maps vmas pos source := by
  simp only [Maps, mem_cons, exists_eq_or_imp]

theorem covered_iff : Covered vmas pos ↔ ∃ source, Maps vmas pos source := by
  constructor
  · intro ⟨area, mem, has⟩
    exact ⟨area.source pos, area, mem, has, rfl⟩
  · intro ⟨_, area, mem, has, _⟩
    exact ⟨area, mem, has⟩

theorem wellFormed_append : WellFormed (before ++ after) ↔
    WellFormed before ∧ WellFormed after ∧ ∀ left ∈ before, ∀ right ∈ after, left.stop ≤ right.start := by
  constructor
  · rintro ⟨proper, order⟩
    rw [forall_mem_append] at proper
    rw [pairwise_append] at order
    exact ⟨⟨proper.1, order.1⟩, ⟨proper.2, order.2.1⟩, order.2.2⟩
  · rintro ⟨first, snd, across⟩
    exact ⟨forall_mem_append.mpr ⟨first.proper, snd.proper⟩,
      pairwise_append.mpr ⟨first.order, snd.order, across⟩⟩

theorem wellFormed_cons : WellFormed (area :: vmas) ↔
    area.Proper ∧ (∀ right ∈ vmas, area.stop ≤ right.start) ∧ WellFormed vmas := by
  constructor
  · rintro ⟨proper, order⟩
    rw [forall_mem_cons] at proper
    rw [pairwise_cons] at order
    exact ⟨proper.1, order.1, proper.2, order.2⟩
  · rintro ⟨self, first, rest⟩
    exact ⟨forall_mem_cons.mpr ⟨self, rest.proper⟩, pairwise_cons.mpr ⟨first, rest.order⟩⟩

theorem WellFormed.unique {one other : VMArea} (wf : WellFormed vmas) (oneMember : one ∈ vmas)
    (otherMember : other ∈ vmas) (oneHas : one.Has pos) (otherHas : other.Has pos) : one = other := by
  induction vmas with
  | nil => exact nomatch oneMember
  | cons head rest ih =>
    obtain ⟨_, first, wf⟩ := wellFormed_cons.mp wf
    simp only [VMArea.Has] at oneHas otherHas
    rcases mem_cons.mp oneMember with rfl | oneRest
    · rcases mem_cons.mp otherMember with rfl | otherRest
      · rfl
      · have := first other otherRest
        omega
    · rcases mem_cons.mp otherMember with rfl | otherRest
      · have := first one oneRest
        omega
      · exact ih wf oneRest otherRest

end

/-! ## Joining neighbours -/

section

variable {before rest : List VMArea} {current : VMArea}

theorem WellFormed.replace {pieces after : List VMArea} (wf : WellFormed (before ++ current :: after))
    (hin : WellFormed pieces)
    (bounds : ∀ piece ∈ pieces, current.start ≤ piece.start ∧ piece.stop ≤ current.stop) :
    WellFormed (before ++ (pieces ++ after)) := by
  obtain ⟨first, snd, across⟩ := wellFormed_append.mp wf
  obtain ⟨_, gap, afterWf⟩ := wellFormed_cons.mp snd
  refine wellFormed_append.mpr ⟨first, wellFormed_append.mpr ⟨hin, afterWf, fun piece mem right later => ?_⟩, ?_⟩
  · exact Nat.le_trans (bounds piece mem).2 (gap right later)
  · intro left mem
    have := forall_mem_cons.mp (across left mem)
    refine forall_mem_append.mpr ⟨fun piece pieceMember => ?_, this.2⟩
    exact Nat.le_trans this.1 (bounds piece pieceMember).1

theorem tryMergeNext_cases (current : VMArea) (rest : List VMArea) :
    tryMergeNext current rest = (current, rest) ∨
    ∃ next tail, rest = next :: tail ∧ current.stop = next.start ∧ current.prot = next.prot ∧
      current.flags = next.flags ∧ next.backingFile = current.backingFile ∧
      (current.backingFile.isSome →
        next.fileOffset = add64 current.fileOffset (sub64 current.stop current.start)) ∧
      tryMergeNext current rest = ({ current with stop := next.stop }, tail) := by
  cases rest with
  | nil => exact .inl rfl
  | cons next tail =>
    by_cases merge : current.mergeable next = true
    · refine .inr ⟨next, tail, rfl, ?_⟩
      have joined : tryMergeNext current (next :: tail) = ({ current with stop := next.stop }, tail) := if_pos merge
      simp only [VMArea.mergeable, Bool.and_eq_true, Bool.or_eq_true, beq_iff_eq, isNone_iff_eq_none] at merge
      obtain ⟨⟨⟨⟨touch, prot⟩, flags⟩, file⟩, off⟩ := merge
      refine ⟨touch, prot, flags, file.symm, fun backed => ?_, joined⟩
      rcases off with none_ | eq
      · rw [none_] at backed
        exact nomatch backed
      · exact eq.symm
    · exact .inl (if_neg merge)

theorem tryMergeNext_start (current : VMArea) (rest : List VMArea) :
    (tryMergeNext current rest).1.start = current.start := by
  rcases tryMergeNext_cases current rest with eq | ⟨next, tail, rfl, _, _, _, _, _, joined⟩
  · rw [eq]
  · rw [joined]

theorem WellFormed.tryMergeNext (wf : WellFormed (before ++ current :: rest)) :
    WellFormed (before ++ (Process.tryMergeNext current rest).1 :: (Process.tryMergeNext current rest).2) := by
  rcases tryMergeNext_cases current rest with eq | ⟨next, tail, rfl, touch, _, _, _, _, joined⟩
  · rwa [eq]
  · rw [joined]
    obtain ⟨first, snd, across⟩ := wellFormed_append.mp wf
    obtain ⟨currentProper, _, third⟩ := wellFormed_cons.mp snd
    obtain ⟨nextProper, nextGap, restWf⟩ := wellFormed_cons.mp third
    have proper : VMArea.Proper { current with stop := next.stop } :=
      ⟨Nat.lt_trans currentProper.nonempty (touch ▸ nextProper.nonempty), currentProper.startAligned,
        nextProper.stopAligned, nextProper.below⟩
    refine wellFormed_append.mpr ⟨first, wellFormed_cons.mpr ⟨proper, nextGap, restWf⟩, fun left mem => ?_⟩
    have gaps := forall_mem_cons.mp (across left mem)
    exact forall_mem_cons.mpr ⟨gaps.1, (forall_mem_cons.mp gaps.2).2⟩

theorem source_of_shift {one other : VMArea} {pos : Nat} (file : other.backingFile = one.backingFile)
    (off : one.backingFile.isSome → other.fileOffset = add64 one.fileOffset (sub64 other.start one.start))
    (first : one.start ≤ other.start) (snd : other.start ≤ pos) (lt : pos < 2 ^ 64) :
    other.source pos = one.source pos := by
  simp only [VMArea.source, file]
  cases backing : one.backingFile with
  | none => rfl
  | some id =>
    simp only [map_some, Option.some.injEq, Prod.mk.injEq, true_and]
    rw [off (by rw [backing]; rfl), sub64_eq first (by omega), sub64_eq snd lt,
      sub64_eq (Nat.le_trans first snd) lt, add64_add64]
    congr 1
    omega

theorem maps_tryMergeNext {pos : Nat} {source : Option (FileId × Nat)} (wf : WellFormed (current :: rest)) :
    Maps ((tryMergeNext current rest).1 :: (tryMergeNext current rest).2) pos source ↔
      Maps (current :: rest) pos source := by
  rcases tryMergeNext_cases current rest with eq | ⟨next, tail, rfl, touch, _, _, file, off, joined⟩
  · rw [eq]
  · rw [joined]
    obtain ⟨currentProper, _, snd⟩ := wellFormed_cons.mp wf
    obtain ⟨nextProper, _, _⟩ := wellFormed_cons.mp snd
    have low := currentProper.nonempty
    have high := nextProper.nonempty
    have below := nextProper.below
    have shifted : next.Has pos → next.source pos = current.source pos := by
      intro has
      refine source_of_shift file (fun backed => ?_) (by omega) has.1 ?_
      · rw [← touch, off backed]
      · have := has.2
        simp only [userMaxAddr] at below
        omega
    have has : VMArea.Has { current with stop := next.stop } pos ↔ current.Has pos ∨ next.Has pos := by
      simp only [VMArea.Has]
      omega
    have eq : VMArea.source { current with stop := next.stop } pos = current.source pos := rfl
    simp only [maps_cons, has, eq]
    constructor
    · rintro (⟨inCurrent | inNext, backed⟩ | later)
      · exact .inl ⟨inCurrent, backed⟩
      · grind
      · exact .inr (.inr later)
    · rintro (⟨inCurrent, backed⟩ | ⟨inNext, backed⟩ | later)
      · exact .inl ⟨.inl inCurrent, backed⟩
      · grind
      · exact .inr later

end

/-! ## Cutting an area -/

section

variable {before after vmas : List VMArea} {found : VMArea} {addr : Nat}

theorem WellFormed.split (wf : WellFormed (before ++ found :: after)) (low : found.start < addr)
    (high : addr < found.stop) (hal : addr % pageSize = 0) :
    WellFormed (before ++ found.splitLeft addr :: found.splitRight addr :: after) := by
  have proper := wf.proper found (by simp)
  have pieces : WellFormed [found.splitLeft addr, found.splitRight addr] := by
    have left : (found.splitLeft addr).Proper :=
      ⟨low, proper.startAligned, hal, Nat.le_trans (Nat.le_of_lt high) proper.below⟩
    have right : (found.splitRight addr).Proper := ⟨high, hal, proper.stopAligned, proper.below⟩
    refine ⟨by simp [left, right], pairwise_pair.mpr ?_⟩
    exact Nat.le_refl addr
  refine wf.replace pieces fun piece mem => ?_
  simp only [mem_cons, not_mem_nil, or_false] at mem
  rcases mem with rfl | rfl
  · exact ⟨Nat.le_refl _, Nat.le_of_lt high⟩
  · exact ⟨Nat.le_of_lt low, Nat.le_refl _⟩

theorem maps_split {pos : Nat} {source : Option (FileId × Nat)} (proper : found.Proper) (low : found.start < addr)
    (high : addr < found.stop) :
    Maps (found.splitLeft addr :: found.splitRight addr :: after) pos source ↔ Maps (found :: after) pos source := by
  have left : (found.splitLeft addr).source pos = found.source pos := rfl
  have right : (found.splitRight addr).Has pos → (found.splitRight addr).source pos = found.source pos := by
    intro has
    refine source_of_shift rfl (fun backed => if_pos backed) (Nat.le_of_lt low) has.1 ?_
    have := has.2
    have below := proper.below
    simp only [VMArea.splitRight, userMaxAddr] at this below
    omega
  have has : found.Has pos ↔ (found.splitLeft addr).Has pos ∨ (found.splitRight addr).Has pos := by
    simp only [VMArea.Has, VMArea.splitLeft, VMArea.splitRight]
    omega
  simp only [maps_cons, has, left]
  constructor
  · rintro (⟨inLeft, backed⟩ | ⟨inRight, backed⟩ | later)
    · exact .inl ⟨.inl inLeft, backed⟩
    · grind
    · exact .inr later
  · rintro (⟨inLeft | inRight, backed⟩ | later)
    · exact .inl ⟨inLeft, backed⟩
    · exact .inr (.inl ⟨inRight, (right inRight).trans backed⟩)
    · exact .inr (.inr later)

end

/-! ## Removing a range -/

section

variable {vmas : List VMArea} {area : VMArea} {addr endAddr : Nat}

theorem munmapPass_some {newOk : Nat → Bool} {kept : List VMArea} {effects : List MmEffect} {news : Nat}
    (ret : munmapPass addr endAddr newOk news vmas = some (kept, effects)) :
    kept = vmas.flatMap (fun area => (area.carve addr endAddr).kept) ∧
      effects = vmas.flatMap fun area => (area.carve addr endAddr).effects := by
  induction vmas generalizing news kept effects with
  | nil =>
    cases ret
    exact ⟨rfl, rfl⟩
  | cons curr rest ih =>
    unfold munmapPass at ret
    simp only at ret
    split at ret
    · exact nomatch ret
    · obtain ⟨⟨_, _⟩, inner, eq⟩ := map_eq_some_iff.mp ret
      cases eq
      obtain ⟨rfl, rfl⟩ := ih inner
      exact ⟨rfl, rfl⟩

theorem munmapPass_isSome {newOk : Nat → Bool} (enough : ∀ news, newOk news = true) (news : Nat) :
    (munmapPass addr endAddr newOk news vmas).isSome := by
  induction vmas generalizing news with
  | nil => rfl
  | cons curr rest ih =>
    unfold munmapPass
    simp only [enough, Bool.not_true, Bool.and_false, Bool.false_eq_true, if_false, isSome_map]
    exact ih _

/-- A piece of an area: inside it, aligned, and backed as the area is. -/
structure Piece (area piece : VMArea) : Prop where
  proper : piece.Proper
  low : area.start ≤ piece.start
  high : piece.stop ≤ area.stop
  source : ∀ pos, piece.Has pos → piece.source pos = area.source pos

section

variable (proper : area.Proper)
include proper

theorem Piece.self : Piece area area :=
  ⟨proper, Nat.le_refl _, Nat.le_refl _, fun _ _ => rfl⟩

theorem Piece.front {stop : Nat} (low : area.start < stop) (high : stop ≤ area.stop) (hal : stop % pageSize = 0) :
    Piece area { area with stop := stop } :=
  ⟨⟨low, proper.startAligned, hal, Nat.le_trans high proper.below⟩, Nat.le_refl _, high, fun _ _ => rfl⟩

theorem Piece.back {start off : Nat} (low : area.start ≤ start) (high : start < area.stop) (hal : start % pageSize = 0)
    (moved : area.backingFile.isSome → off = add64 area.fileOffset (sub64 start area.start)) :
    Piece area { area with start := start, fileOffset := off } := by
  refine ⟨⟨high, hal, proper.stopAligned, proper.below⟩, low, Nat.le_refl _, fun pos has => ?_⟩
  refine source_of_shift rfl moved low has.1 ?_
  have := has.2
  have below := proper.below
  simp only [userMaxAddr] at this below
  omega

theorem carve_spec (range : addr ≤ endAddr) (addrAligned : addr % pageSize = 0) (endAligned : endAddr % pageSize = 0) :
    (∀ piece ∈ (area.carve addr endAddr).kept, Piece area piece) ∧
      (area.carve addr endAddr).kept.Pairwise (fun left right => left.stop ≤ right.start) ∧
      ∀ pos, (∃ piece ∈ (area.carve addr endAddr).kept, piece.Has pos) ↔
        area.Has pos ∧ ¬ (addr ≤ pos ∧ pos < endAddr) := by
  unfold VMArea.carve
  split
  next ne =>
    refine ⟨forall_mem_singleton.mpr (.self proper), pairwise_singleton _ _, fun pos => ?_⟩
    simp only [mem_singleton, exists_eq_left, VMArea.Has]
    omega
  next meets =>
    split
    next whole =>
      refine ⟨fun _ mem => (nomatch mem), List.Pairwise.nil, fun pos => ?_⟩
      simp only [not_mem_nil, false_and, exists_false, VMArea.Has, false_iff]
      omega
    next partly =>
      split
      next starts =>
        split
        next ends =>
          refine ⟨?_, pairwise_pair.mpr range, fun pos => ?_⟩
          · refine forall_mem_cons.mpr ⟨.front proper starts (by omega) addrAligned, ?_⟩
            exact forall_mem_singleton.mpr (.back proper (by omega) ends endAligned fun _ => rfl)
          · simp only [mem_cons, not_mem_nil, or_false, exists_eq_or_imp, exists_eq_left, VMArea.Has]
            omega
        next inner =>
          refine ⟨forall_mem_singleton.mpr (.front proper starts (by omega) addrAligned),
            pairwise_singleton _ _, fun pos => ?_⟩
          simp only [mem_singleton, exists_eq_left, VMArea.Has]
          omega
      next later =>
        split
        next ends =>
          refine ⟨forall_mem_singleton.mpr (.back proper (by omega) ends endAligned fun backed => if_pos backed),
            pairwise_singleton _ _, fun pos => ?_⟩
          simp only [mem_singleton, exists_eq_left, VMArea.Has]
          omega
        next impossible =>
          exact absurd ⟨by omega, by omega⟩ partly

end

theorem WellFormed.munmap (wf : WellFormed vmas) (range : addr ≤ endAddr) (addrAligned : addr % pageSize = 0)
    (endAligned : endAddr % pageSize = 0) :
    WellFormed (vmas.flatMap fun area => (area.carve addr endAddr).kept) ∧
      ∀ pos source, Maps (vmas.flatMap fun area => (area.carve addr endAddr).kept) pos source ↔
        Maps vmas pos source ∧ ¬ (addr ≤ pos ∧ pos < endAddr) := by
  have carved := fun area mem => carve_spec (wf.proper area mem) range addrAligned endAligned
  refine ⟨⟨?_, ?_⟩, fun pos source => ?_⟩
  · intro piece mem
    obtain ⟨area, areaMember, pieceMember⟩ := mem_flatMap.mp mem
    exact ((carved area areaMember).1 piece pieceMember).proper
  · rw [pairwise_flatMap]
    refine ⟨fun area mem => (carved area mem).2.1, wf.order.imp_of_mem ?_⟩
    intro left right leftMember rightMember gap leftPiece leftPieceMember rightPiece rightPieceMember
    have high := ((carved left leftMember).1 leftPiece leftPieceMember).high
    have low := ((carved right rightMember).1 rightPiece rightPieceMember).low
    omega
  · constructor
    · rintro ⟨piece, mem, has, backed⟩
      obtain ⟨area, areaMember, pieceMember⟩ := mem_flatMap.mp mem
      obtain ⟨pieces, _, covers⟩ := carved area areaMember
      obtain ⟨areaHas, out⟩ := (covers pos).mp ⟨piece, pieceMember, has⟩
      exact ⟨⟨area, areaMember, areaHas, ((pieces piece pieceMember).source pos has).symm.trans backed⟩, out⟩
    · rintro ⟨⟨area, areaMember, has, backed⟩, out⟩
      obtain ⟨pieces, _, covers⟩ := carved area areaMember
      obtain ⟨piece, pieceMember, pieceHas⟩ := (covers pos).mpr ⟨has, out⟩
      exact ⟨piece, mem_flatMap.mpr ⟨area, areaMember, pieceMember⟩, pieceHas,
        ((pieces piece pieceMember).source pos pieceHas).trans backed⟩

end

/-! ## Changing protections -/

section

variable {before after vmas : List VMArea} {found : VMArea} {addr : Nat}

theorem findAt_some (res : findAt addr vmas = some (before, found, after)) :
    vmas = before ++ found :: after ∧ found.Has addr := by
  induction vmas generalizing before with
  | nil => exact nomatch res
  | cons area rest ih =>
    unfold findAt at res
    split at res
    next h =>
      obtain ⟨rfl, rfl, rfl⟩ := Option.some.inj res
      exact ⟨rfl, h⟩
    next =>
      obtain ⟨⟨before', hf', after'⟩, inner, eq⟩ := map_eq_some_iff.mp res
      obtain ⟨rfl, rfl, rfl⟩ := eq
      obtain ⟨split, has⟩ := ih inner
      exact ⟨congrArg (area :: ·) split, has⟩

theorem WellFormed.setProt (prot : Nat) (wf : WellFormed (before ++ found :: after)) :
    WellFormed (before ++ { found with prot := prot } :: after) := by
  have proper := wf.proper found (by simp)
  have pieces : WellFormed [{ found with prot := prot }] :=
    ⟨forall_mem_singleton.mpr ⟨proper.nonempty, proper.startAligned, proper.stopAligned, proper.below⟩,
      pairwise_singleton _ _⟩
  refine wf.replace pieces fun piece mem => ?_
  rw [mem_singleton.mp mem]
  exact ⟨Nat.le_refl _, Nat.le_refl _⟩

theorem WellFormed.protect {endAddr : Nat} (prot : Nat) (wf : WellFormed (before ++ found :: after))
    (hin : found.start < endAddr) (hal : endAddr % pageSize = 0) :
    WellFormed (before ++ protectTarget endAddr prot found :: protectRest endAddr found after) := by
  unfold protectTarget protectRest
  by_cases cut : endAddr < found.stop
  · rw [if_pos cut, if_pos cut]
    exact (wf.split hin cut hal).setProt prot
  · rw [if_neg cut, if_neg cut]
    exact wf.setProt prot

theorem maps_protect {endAddr prot pos : Nat} {source : Option (FileId × Nat)} (proper : found.Proper)
    (hin : found.start < endAddr) :
    Maps (protectTarget endAddr prot found :: protectRest endAddr found after) pos source ↔
      Maps (found :: after) pos source := by
  have eq : ∀ area : VMArea, ∀ rest : List VMArea,
      Maps ({ area with prot := prot } :: rest) pos source ↔ Maps (area :: rest) pos source := by
    intro area rest
    rw [maps_cons, maps_cons]
    rfl
  unfold protectTarget protectRest
  by_cases cut : endAddr < found.stop
  · rw [if_pos cut, if_pos cut, eq, maps_split proper hin cut]
  · rw [if_neg cut, if_neg cut, eq]

theorem protectTarget_start (endAddr prot : Nat) (found : VMArea) :
    (protectTarget endAddr prot found).start = found.start := by
  unfold protectTarget
  split <;> rfl

/-- The rounds of the loop of `Sys_Mprotect`: what each does to the list and which
effects it has. The loop may leave after any round. -/
inductive ProtectRun (endAddr prot : Nat) : Nat → List VMArea → List VMArea → List MmEffect → Prop
  | leave {scanAddr : Nat} {vmas : List VMArea} : ProtectRun endAddr prot scanAddr vmas vmas []
  | split {scanAddr : Nat} {before after vmas' : List VMArea} {found : VMArea} {effects : List MmEffect}
      (more : scanAddr < endAddr) (inner : found.start < scanAddr) (high : scanAddr < found.stop)
      (rest : ProtectRun endAddr prot scanAddr
        (before ++ found.splitLeft scanAddr :: found.splitRight scanAddr :: after) vmas' effects) :
      ProtectRun endAddr prot scanAddr (before ++ found :: after) vmas' (found.retains ++ effects)
  | round {before after vmas' : List VMArea} {found : VMArea} {effects : List MmEffect}
      (more : found.start < endAddr) (high : found.start < found.stop)
      (rest : ProtectRun endAddr prot
        (tryMergeNext (protectTarget endAddr prot found) (protectRest endAddr found after)).1.stop
        (before ++ (tryMergeNext (protectTarget endAddr prot found) (protectRest endAddr found after)).1 ::
          (tryMergeNext (protectTarget endAddr prot found) (protectRest endAddr found after)).2) vmas' effects) :
      ProtectRun endAddr prot found.start (before ++ found :: after) vmas'
        ((if endAddr < found.stop then found.retains else []) ++
          .updateProt (protectTarget endAddr prot found).start
            (sub64 (protectTarget endAddr prot found).stop (protectTarget endAddr prot found).start) prot :: effects)

theorem protectRun_of_loop {endAddr prot : Nat} {newOk : Nat → Bool} (fuel : Nat) :
    ∀ {news scanAddr : Nat} {vmas vmas' : List VMArea} {res : Except Int Unit} {effects : List MmEffect},
      mprotectLoop endAddr prot newOk fuel news scanAddr vmas = some (res, vmas', effects) →
      ProtectRun endAddr prot scanAddr vmas vmas' effects := by
  induction fuel with
  | zero =>
    intro news scanAddr vmas vmas' res effects ret
    unfold mprotectLoop at ret
    split at ret
    · cases ret
      exact .leave
    · split at ret
      · cases ret
        exact .leave
      · exact nomatch ret
  | succ fuel ih =>
    intro news scanAddr vmas vmas' res effects ret
    unfold mprotectLoop at ret
    split at ret
    · cases ret
      exact .leave
    next more =>
      split at ret
      · cases ret
        exact .leave
      next before found after h =>
        obtain ⟨rfl, low, high⟩ := findAt_some h
        simp only at ret
        split at ret
        next inner =>
          split at ret
          · obtain ⟨⟨_, _, _⟩, rest, eq⟩ := map_eq_some_iff.mp ret
            cases eq
            exact .split (by omega) inner high (ih rest)
          · cases ret
            exact .leave
        next outer =>
          split at ret
          · cases ret
            exact .leave
          · obtain ⟨⟨_, _, _⟩, rest, eq⟩ := map_eq_some_iff.mp ret
            cases eq
            obtain rfl : found.start = scanAddr := by omega
            exact .round (by omega) high (ih rest)

theorem ProtectRun.spec {endAddr prot scanAddr : Nat} {vmas vmas' : List VMArea} {effects : List MmEffect}
    (run : ProtectRun endAddr prot scanAddr vmas vmas' effects) (endAligned : endAddr % pageSize = 0)
    (hal : scanAddr % pageSize = 0) (wf : WellFormed vmas) :
    WellFormed vmas' ∧ ∀ pos source, Maps vmas' pos source ↔ Maps vmas pos source := by
  induction run with
  | leave => exact ⟨wf, fun _ _ => .rfl⟩
  | @split scanAddr before after vmas' found effects _ inner high _ ih =>
    obtain ⟨wf', maps⟩ := ih hal (wf.split inner high hal)
    have proper := wf.proper found (by simp)
    refine ⟨wf', fun pos source => ?_⟩
    rw [maps, maps_append, maps_split proper inner high, ← maps_append]
  | @round before after vmas' found effects more _ _ ih =>
    have cut := wf.protect prot more endAligned
    have merged := cut.tryMergeNext
    have tail := (wellFormed_append.mp cut).2.1
    have stop := merged.proper _ (mem_append_right _ (.head _))
    obtain ⟨wf', maps⟩ := ih stop.stopAligned merged
    have proper := wf.proper found (by simp)
    refine ⟨wf', fun pos source => ?_⟩
    rw [maps, maps_append, maps_tryMergeNext tail, maps_protect proper more, ← maps_append]

/-- Areas that the loop may still visit. -/
def pending (scanAddr : Nat) (vmas : List VMArea) : Nat := vmas.countP fun area => scanAddr < area.stop

theorem pending_append {scanAddr : Nat} : pending scanAddr (before ++ after) =
    pending scanAddr before + pending scanAddr after := countP_append

theorem pending_cons {scanAddr : Nat} : pending scanAddr (found :: after) =
    pending scanAddr after + if scanAddr < found.stop then 1 else 0 := by
  simp only [pending, countP_cons, decide_eq_true_eq]

theorem pending_mono {low high : Nat} (le : low ≤ high) : pending high vmas ≤ pending low vmas :=
  countP_mono_left fun area _ above => by
    simp only [decide_eq_true_eq] at above ⊢
    omega

theorem pending_eq_zero {scanAddr : Nat} (passed : ∀ area ∈ vmas, area.stop ≤ scanAddr) :
    pending scanAddr vmas = 0 := by
  refine countP_eq_zero.mpr fun area mem => ?_
  have := passed area mem
  simp only [decide_eq_true_eq]
  omega

theorem pending_lt {scanAddr : Nat} (mem : found ∈ vmas) (ahead : scanAddr < found.stop) :
    pending found.stop vmas < pending scanAddr vmas := by
  obtain ⟨before, after, rfl⟩ := append_of_mem mem
  have first : pending found.stop before ≤ pending scanAddr before := pending_mono (Nat.le_of_lt ahead)
  have snd : pending found.stop after ≤ pending scanAddr after := pending_mono (Nat.le_of_lt ahead)
  rw [pending_append, pending_append, pending_cons, pending_cons, if_pos ahead, if_neg (Nat.lt_irrefl _)]
  omega

theorem mprotectLoop_done {endAddr prot fuel news scanAddr : Nat} {newOk : Nat → Bool}
    (done : endAddr ≤ scanAddr) : (mprotectLoop endAddr prot newOk fuel news scanAddr vmas).isSome := by
  cases fuel <;> simp [mprotectLoop, done]

theorem tryMergeNext_after {current : VMArea} {rest : List VMArea} (scanAddr : Nat)
    (wf : WellFormed (current :: rest)) :
    current.stop ≤ (tryMergeNext current rest).1.stop ∧
      pending scanAddr (tryMergeNext current rest).2 ≤ pending scanAddr rest := by
  rcases tryMergeNext_cases current rest with eq | ⟨next, tail, rfl, touch, _, _, _, _, joined⟩
  · rw [eq]
    exact ⟨Nat.le_refl _, Nat.le_refl _⟩
  · rw [joined, pending_cons]
    have := (wf.proper next (by simp)).nonempty
    simp only
    omega

theorem mprotectLoop_isSome {endAddr prot : Nat} {newOk : Nat → Bool} (endAligned : endAddr % pageSize = 0)
    (fuel : Nat) :
    ∀ {news scanAddr : Nat} {vmas : List VMArea}, WellFormed vmas → scanAddr % pageSize = 0 →
      (2 * pending scanAddr vmas + 1 ≤ fuel ∨ 2 * pending scanAddr vmas ≤ fuel ∧
        ∀ area ∈ vmas, area.Has scanAddr → area.start = scanAddr) →
      (mprotectLoop endAddr prot newOk fuel news scanAddr vmas).isSome := by
  induction fuel with
  | zero =>
    intro news scanAddr vmas wf hal enough
    unfold mprotectLoop
    split
    · rfl
    · split
      · rfl
      next before found after h =>
        obtain ⟨rfl, low, high⟩ := findAt_some h
        rw [pending_append, pending_cons, if_pos high] at enough
        omega
  | succ fuel ih =>
    intro news scanAddr vmas wf hal enough
    unfold mprotectLoop
    split
    · rfl
    next more =>
      split
      · rfl
      next before found after h =>
        obtain ⟨rfl, low, high⟩ := findAt_some h
        obtain ⟨first, snd, across⟩ := wellFormed_append.mp wf
        obtain ⟨_, gap, _⟩ := wellFormed_cons.mp snd
        have passed : pending scanAddr before = 0 := pending_eq_zero fun area mem =>
          Nat.le_trans (across area mem found (.head _)) low
        rw [pending_append, passed, pending_cons, if_pos high] at enough
        simp only
        split
        next inner =>
          split
          · rw [isSome_map]
            refine ih (wf.split inner high hal) hal (.inr ⟨?_, ?_⟩)
            · have leftPassed : ¬ scanAddr < (found.splitLeft scanAddr).stop := Nat.lt_irrefl scanAddr
              have rightPending : scanAddr < (found.splitRight scanAddr).stop := high
              rw [pending_append, passed, pending_cons, pending_cons, if_neg leftPassed, if_pos rightPending]
              rcases enough with enough | ⟨_, none_⟩
              · omega
              · have := none_ found (by simp) ⟨low, high⟩
                omega
            · intro area mem has
              have right : (found.splitRight scanAddr).Has scanAddr := ⟨Nat.le_refl _, high⟩
              rw [(wf.split inner high hal).unique mem (by simp) has right]
              rfl
          · rfl
        next outer =>
          split
          · rfl
          · rw [isSome_map]
            have cutWf := wf.protect prot (show found.start < endAddr by omega) endAligned
            have merged := cutWf.tryMergeNext
            have tail := (wellFormed_append.mp cutWf).2.1
            obtain ⟨grows, fewer⟩ := tryMergeNext_after
              (tryMergeNext (protectTarget endAddr prot found) (protectRest endAddr found after)).1.stop tail
            by_cases cut : endAddr < found.stop
            · apply mprotectLoop_done
              have target : (protectTarget endAddr prot found).stop = endAddr := by
                rw [protectTarget, if_pos cut]
                rfl
              omega
            · have target : (protectTarget endAddr prot found).stop = found.stop := by
                rw [protectTarget, if_neg cut]
              have rest : protectRest endAddr found after = after := if_neg cut
              rw [rest] at grows fewer merged ⊢
              refine ih merged (merged.proper _ (by simp)).stopAligned (.inl ?_)
              have beforePassed :
                  pending (tryMergeNext (protectTarget endAddr prot found) after).1.stop before = 0 := by
                apply pending_eq_zero
                intro area mem
                have := across area mem found (.head _)
                omega
              have later : pending (tryMergeNext (protectTarget endAddr prot found) after).1.stop after ≤
                  pending scanAddr after := pending_mono (by omega)
              rw [pending_append, beforePassed, pending_cons, if_neg (Nat.lt_irrefl _)]
              omega

end

end RosKernel.Process
