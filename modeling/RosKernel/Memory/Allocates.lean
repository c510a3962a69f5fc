import RosKernel.Memory.PageTree

/-! Steps that only take frames.

On its way to a page `MapPages` takes frames for tables and gives nothing back, whatever the tables look like.
-/

set_option autoImplicit false

namespace RosKernel.Memory

variable {memory memory' memory'' : PageMemory}

/-- Frames may be taken, and none is given back. -/
structure Allocates (memory memory' : PageMemory) : Prop where
  inUse : ∀ addr, memory.InUse addr → memory'.InUse addr
  freed : memory'.freed = memory.freed

theorem Allocates.refl (memory : PageMemory) : Allocates memory memory := by
  constructor
  · exact fun _ used => used
  · rfl

theorem Allocates.trans (first : Allocates memory memory') (snd : Allocates memory' memory'') :
    Allocates memory memory'' := by
  constructor
  · exact fun addr used => snd.inUse addr (first.inUse addr used)
  · exact snd.freed.trans first.freed

theorem Allocates.rewrite (words : Nat → Nat → Nat) (allocates : Allocates memory memory') :
    Allocates memory { memory' with words := words } := by
  constructor
  · exact allocates.inUse
  · exact allocates.freed

theorem allocPage_allocates (memory : PageMemory) : Allocates memory memory.allocPage.2 := by
  rcases allocPage_cases memory with none_ | ⟨frame, frames, ht, _, _, inUse⟩
  · rw [none_]
    exact .refl memory
  · rw [ht]
    constructor
    · exact fun addr used => (inUse addr).mpr (.inl used)
    · rfl

theorem enterTable_allocates (memory : PageMemory) (table idx : Nat) (checkHuge : Bool) :
    Allocates memory (memory.enterTable table idx checkHuge).2 := by
  have after := allocPage_allocates memory
  unfold PageMemory.enterTable
  simp only
  generalize memory.allocPage = res at after ⊢
  split
  · split
    · exact after
    · exact after.rewrite _
  · split
    · exact .refl memory
    · dsimp only
      split
      · exact (Allocates.refl memory).rewrite _
      · exact .refl memory

theorem enterTables_allocates (path : List (Nat × Bool)) (memory : PageMemory) (table : Nat) :
    Allocates memory (memory.enterTables table path).2 := by
  induction path generalizing memory table with
  | nil => exact .refl memory
  | cons step path ih =>
    rw [PageMemory.enterTables]
    have after := enterTable_allocates memory table step.1 step.2
    cases entered : memory.enterTable table step.1 step.2 with
    | mk next mid =>
      rw [entered] at after
      cases next with
      | none => exact after
      | some next => exact after.trans (ih mid next)

theorem mapPage_allocates (memory : PageMemory) (pml4 physAddr virtAddr flags : Nat) :
    Allocates memory (memory.mapPage pml4 physAddr virtAddr flags).2 := by
  unfold PageMemory.mapPage
  have after := enterTables_allocates
    [(tableIndex 3 virtAddr, false), (tableIndex 2 virtAddr, true), (tableIndex 1 virtAddr, true)] memory pml4
  generalize memory.enterTables pml4 _ = res at after ⊢
  obtain ⟨pt, mid⟩ := res
  cases pt with
  | none => exact after
  | some pt => exact after.rewrite _

theorem mapPagesFrom_allocates (memory : PageMemory) (pml4 physAddr virtAddr flags i count : Nat) :
    Allocates memory (memory.mapPagesFrom pml4 physAddr virtAddr flags i count).2 := by
  induction count generalizing i memory with
  | zero => exact .refl memory
  | succ count ih =>
    rw [PageMemory.mapPagesFrom]
    have mapped := mapPage_allocates memory pml4 (add64 physAddr (mul64 i pageSize)) (add64 virtAddr (mul64 i pageSize)) flags
    cases page : memory.mapPage pml4 (add64 physAddr (mul64 i pageSize)) (add64 virtAddr (mul64 i pageSize)) flags with
    | mk ok mid =>
      rw [page] at mapped
      cases ok with
      | false => exact mapped
      | true => exact mapped.trans (ih mid (i + 1))

/-- Frames that were in use stay in use. -/
structure Spares (memory memory' : PageMemory) : Prop where
  inUse : ∀ addr, memory.InUse addr → memory'.InUse addr
  freed : memory.freed <+: memory'.freed

theorem Allocates.spares (allocates : Allocates memory memory') : Spares memory memory' := by
  constructor
  · exact allocates.inUse
  · exact allocates.freed.symm ▸ List.prefix_rfl

theorem Spares.trans (first : Spares memory memory') (snd : Spares memory' memory'') : Spares memory memory'' := by
  constructor
  · exact fun addr used => snd.inUse addr (first.inUse addr used)
  · exact first.freed.trans snd.freed

theorem Spares.release {frame : Nat} (spares : Spares memory memory') (managed : Managed frame)
    (fresh : ¬memory.InUse frame) : Spares memory (memory'.free frame) := by
  constructor
  · intro addr used
    rw [free_inUse managed]
    exact ⟨spares.inUse addr used, fun eq => fresh (eq ▸ used)⟩
  · exact spares.freed.trans (List.prefix_append _ _)

end RosKernel.Memory
