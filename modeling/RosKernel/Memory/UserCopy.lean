import RosKernel.Memory.MapTables
import RosKernel.Memory.PhysBytes

/-! Copies between the kernel and user space, `kernel/mm/usercopy.cpp`.

The processor's walk ends at a leaf, whose level gives the size of the page. The kernel's walks find the same leaf, but mask
it alike at every level.
-/

set_option autoImplicit false

namespace RosKernel.Memory

def user (entry : Nat) : Bool := entry &&& pageUser != 0

/-- What `vaddr_to_phys_page` fills in. The address is that of the byte, not of its page. -/
structure PhysPage where
  physAddr : Nat
  size : Nat
  flags : Nat
  deriving DecidableEq

namespace PageMemory

def vaddrToPhysPage (memory : PageMemory) (pml4 virtAddr : Nat) : Option PhysPage :=
  let pml4e := memory.words pml4 (tableIndex 3 virtAddr)
  if !present pml4e then none
  else if !user pml4e then none
  else
    let pdpte := memory.words (entryAddr pml4e) (tableIndex 2 virtAddr)
    if !present pdpte then none
    else if !user pdpte then none
    else if huge pdpte then some ⟨add64 (entryAddr pdpte) (virtAddr &&& (2 ^ 30 - 1)), 2 ^ 30, pdpte⟩
    else
      let pde := memory.words (entryAddr pdpte) (tableIndex 1 virtAddr)
      if !present pde then none
      else if !user pde then none
      else if huge pde then some ⟨add64 (entryAddr pde) (virtAddr &&& (2 ^ 21 - 1)), 2 ^ 21, pde⟩
      else
        let pte := memory.words (entryAddr pde) (tableIndex 0 virtAddr)
        if !present pte then none
        else if !user pte then none
        else some ⟨add64 (entryAddr pte) (virtAddr &&& (pageSize - 1)), pageSize, pte⟩

/-- The loop of `CopyFromUser`: the bytes copied, and whether it came to its end. Every round copies at least a byte, so
there are no more rounds than bytes. -/
def copyFromUserRounds (memory : PageMemory) (pml4 : Nat) : Nat → Nat → Nat → Bool × List UInt8
  | 0, _, _ => (true, [])
  | rounds + 1, src, remaining =>
    if remaining = 0 then (true, [])
    else
      match memory.vaddrToPhysPage pml4 src with
      | none => (false, [])
      | some page =>
        let offsetInPage := src % page.size
        let avail := page.size - offsetInPage
        let chunk := if avail < remaining then avail else remaining
        let rest := copyFromUserRounds memory pml4 rounds (add64 src chunk) (remaining - chunk)
        (rest.1, memory.readBytes page.physAddr chunk ++ rest.2)

/-- The page table and the kernel's buffer are never null. -/
def copyFromUser (memory : PageMemory) (pml4 srcUser len : Nat) : Bool × List UInt8 :=
  if len = 0 then (true, [])
  else if srcUser = 0 then (false, [])
  else copyFromUserRounds memory pml4 len srcUser len

/-- The loop of `CopyToUser` over the bytes that are left. -/
def copyToUserRounds (pml4 : Nat) : Nat → Nat → List UInt8 → PageMemory → Bool × PageMemory
  | 0, _, _, memory => (true, memory)
  | rounds + 1, dst, bytes, memory =>
    if bytes.length = 0 then (true, memory)
    else
      match memory.vaddrToPhysPage pml4 dst with
      | none => (false, memory)
      | some page =>
        let offsetInPage := dst % page.size
        let avail := page.size - offsetInPage
        let chunk := if avail < bytes.length then avail else bytes.length
        copyToUserRounds pml4 rounds (add64 dst chunk) (bytes.drop chunk)
          (memory.writeBytes page.physAddr (bytes.take chunk))

def copyToUser (memory : PageMemory) (pml4 dstUser : Nat) (bytes : List UInt8) : Bool × PageMemory :=
  if bytes.length = 0 then (true, memory)
  else if dstUser = 0 then (false, memory)
  else copyToUserRounds pml4 bytes.length dstUser bytes memory

end PageMemory

section

variable {memory memory' : PageMemory} {pml4 : Nat}

/-- The frames that a copy from user space may look at: the tables, and what user addresses translate to. -/
def PageMemory.Reads (memory : PageMemory) (pml4 frame : Nat) : Prop :=
  memory.IsTable pml4 frame ∨ ∃ virtAddr page, memory.vaddrToPhysPage pml4 virtAddr = some page ∧
    ∃ k < page.size - virtAddr % page.size, frame = frameOf (page.physAddr + k)

theorem vaddrToPhysPage_congr (eq : ∀ table, memory.IsTable pml4 table → memory'.words table = memory.words table)
    (virtAddr : Nat) : memory'.vaddrToPhysPage pml4 virtAddr = memory.vaddrToPhysPage pml4 virtAddr := by
  have hin := indices_pathOf virtAddr
  have root := tableAt_nil memory pml4
  unfold PageMemory.vaddrToPhysPage
  dsimp only
  -- level by level: what is read is a table as long as the walk goes on
  rw [eq pml4 ⟨[], 3, indices_nil, root⟩]
  rcases upper_entry root (tableIndex 3 virtAddr) with ⟨absent, _⟩ | ⟨_, ⟨notTop, _⟩, _⟩ | ⟨_, _, reached3, _⟩
  · simp only [absent, Bool.not_false, if_true]
  · exact absurd rfl notTop
  rw [eq _ ⟨_, 2, hin.tail.tail.tail, reached3⟩]
  rcases upper_entry reached3 (tableIndex 2 virtAddr) with ⟨absent, _⟩ | ⟨_, ⟨_, large⟩, _⟩ | ⟨_, _, reached2, _⟩
  · simp only [absent, Bool.not_false, if_true]
  · simp only [large, if_true]
  rw [eq _ ⟨_, 1, hin.tail.tail, reached2⟩]
  rcases upper_entry reached2 (tableIndex 1 virtAddr) with ⟨absent, _⟩ | ⟨_, ⟨_, large⟩, _⟩ | ⟨_, _, reached1, _⟩
  · simp only [absent, Bool.not_false, if_true]
  · simp only [large, if_true]
  rw [eq _ ⟨_, 0, hin.tail, reached1⟩]

theorem copyFromUser_congr (eq : ∀ frame, memory.Reads pml4 frame → memory'.words frame = memory.words frame)
    (srcUser len : Nat) : memory'.copyFromUser pml4 srcUser len = memory.copyFromUser pml4 srcUser len := by
  have rounds : ∀ rounds src remaining,
      memory'.copyFromUserRounds pml4 rounds src remaining = memory.copyFromUserRounds pml4 rounds src remaining := by
    intro rounds
    induction rounds with
    | zero => exact fun _ _ => rfl
    | succ rounds ih =>
      intro src remaining
      rw [PageMemory.copyFromUserRounds, PageMemory.copyFromUserRounds,
        vaddrToPhysPage_congr fun table isTable => eq table (.inl isTable)]
      cases hf : memory.vaddrToPhysPage pml4 src with
      | none => rfl
      | some page =>
        simp only [ih]
        have bytes : ∀ chunk ≤ page.size - src % page.size,
            memory'.readBytes page.physAddr chunk = memory.readBytes page.physAddr chunk := by
          intro chunk lt
          apply readBytes_congr
          intro k hin
          apply byteAt_congr
          rw [eq _ (.inr ⟨src, page, hf, k, by omega, rfl⟩)]
        rw [bytes _ (by split <;> omega)]
  unfold PageMemory.copyFromUser
  rw [rounds]

end

section

variable (memory : PageMemory) (virtAddr : Nat)

/-- The leaf below a table, with its level. Only the two middle levels have large pages. -/
def leafFrom : Nat → Nat → Option (Nat × Nat)
  | 0, table =>
    let entry := memory.words table (tableIndex 0 virtAddr)
    if present entry then some (0, entry) else none
  | level + 1, table =>
    let entry := memory.words table (tableIndex (level + 1) virtAddr)
    if !present entry then none
    else if level + 1 < 3 ∧ huge entry then some (level + 1, entry)
    else leafFrom level (entryAddr entry)

def leaf (pml4 : Nat) : Option (Nat × Nat) := leafFrom memory virtAddr 3 pml4

/-- The leaf below a table, if every entry on the way to it passes a check. -/
def checkedFrom (check : Nat → Bool) : Nat → Nat → Option (Nat × Nat)
  | 0, table =>
    let entry := memory.words table (tableIndex 0 virtAddr)
    if present entry && check entry then some (0, entry) else none
  | level + 1, table =>
    let entry := memory.words table (tableIndex (level + 1) virtAddr)
    if !(present entry && check entry) then none
    else if level + 1 < 3 ∧ huge entry then some (level + 1, entry)
    else checkedFrom check level (entryAddr entry)

def checkedLeaf (check : Nat → Bool) (pml4 : Nat) : Option (Nat × Nat) := checkedFrom memory virtAddr check 3 pml4

/-- The number of address bits that a page of this level leaves to the offset. -/
def offsetBits (level : Nat) : Nat := 12 + 9 * level

/-- The frame in bits 51 down to the size of the page, and the offset in the page. -/
def leafAddress (level entry : Nat) : Nat :=
  entry / 2 ^ offsetBits level % 2 ^ (52 - offsetBits level) * 2 ^ offsetBits level + virtAddr % 2 ^ offsetBits level

def translation (pml4 : Nat) : Option Nat := (leaf memory virtAddr pml4).map fun (level, entry) => leafAddress virtAddr level entry

end

section

variable (memory : PageMemory) (pml4 virtAddr : Nat)

/-- What the walkers that mask every entry alike make of a leaf. -/
def maskedAddress (level entry : Nat) : Nat := entryAddr entry + virtAddr % 2 ^ offsetBits level

theorem leaf_eq : leaf memory virtAddr pml4 =
    let pml4e := memory.words pml4 (tableIndex 3 virtAddr)
    if !present pml4e then none
    else
      let pdpte := memory.words (entryAddr pml4e) (tableIndex 2 virtAddr)
      if !present pdpte then none
      else if huge pdpte then some (2, pdpte)
      else
        let pde := memory.words (entryAddr pdpte) (tableIndex 1 virtAddr)
        if !present pde then none
        else if huge pde then some (1, pde)
        else
          let pte := memory.words (entryAddr pde) (tableIndex 0 virtAddr)
          if present pte then some (0, pte) else none := by
  simp [leaf, leafFrom]

theorem level_le {level entry : Nat} (hf : leaf memory virtAddr pml4 = some (level, entry)) : level ≤ 2 := by
  rw [leaf_eq] at hf
  grind

variable {memory pml4 virtAddr}

theorem masked_add {level entry : Nat} (bound : level ≤ 2) :
    add64 (entryAddr entry) (virtAddr &&& (2 ^ offsetBits level - 1)) = maskedAddress virtAddr level entry := by
  have low : virtAddr % 2 ^ offsetBits level < 2 ^ offsetBits level := Nat.mod_lt _ (Nat.two_pow_pos _)
  have size : 2 ^ offsetBits level ≤ 2 ^ 30 := Nat.pow_le_pow_right (by decide) (by unfold offsetBits; omega)
  have frame := (entryAddr_mappable entry).small
  rw [Nat.and_two_pow_sub_one_eq_mod, add64_eq (by omega), maskedAddress]

theorem getPhysicalAddress_leaf : memory.getPhysicalAddress pml4 virtAddr =
    match leaf memory virtAddr pml4 with
    | some (level, entry) => maskedAddress virtAddr level entry
    | none => 0 := by
  have giga := fun entry => @masked_add virtAddr 2 entry (by decide)
  have mega := fun entry => @masked_add virtAddr 1 entry (by decide)
  have page := fun entry => @masked_add virtAddr 0 entry (by decide)
  rw [leaf_eq]
  unfold PageMemory.getPhysicalAddress
  grind [offsetBits, pageSize]

theorem checkedLeaf_eq (check : Nat → Bool) : checkedLeaf memory virtAddr check pml4 =
    let pml4e := memory.words pml4 (tableIndex 3 virtAddr)
    if !(present pml4e && check pml4e) then none
    else
      let pdpte := memory.words (entryAddr pml4e) (tableIndex 2 virtAddr)
      if !(present pdpte && check pdpte) then none
      else if huge pdpte then some (2, pdpte)
      else
        let pde := memory.words (entryAddr pdpte) (tableIndex 1 virtAddr)
        if !(present pde && check pde) then none
        else if huge pde then some (1, pde)
        else
          let pte := memory.words (entryAddr pde) (tableIndex 0 virtAddr)
          if present pte && check pte then some (0, pte) else none := by
  simp [checkedLeaf, checkedFrom]

theorem vaddrToPhysPage_eq : memory.vaddrToPhysPage pml4 virtAddr =
    (checkedLeaf memory virtAddr user pml4).map fun (level, entry) =>
      ⟨maskedAddress virtAddr level entry, 2 ^ offsetBits level, entry⟩ := by
  have giga := fun entry => @masked_add virtAddr 2 entry (by decide)
  have mega := fun entry => @masked_add virtAddr 1 entry (by decide)
  have page := fun entry => @masked_add virtAddr 0 entry (by decide)
  rw [checkedLeaf_eq]
  unfold PageMemory.vaddrToPhysPage
  generalize memory.words pml4 (tableIndex 3 virtAddr) = pml4e
  generalize memory.words (entryAddr pml4e) (tableIndex 2 virtAddr) = pdpte
  generalize memory.words (entryAddr pdpte) (tableIndex 1 virtAddr) = pde
  generalize memory.words (entryAddr pde) (tableIndex 0 virtAddr) = pte
  grind [offsetBits, pageSize]

theorem checkedFrom_leafFrom {check : Nat → Bool} {height table : Nat} {node : Nat × Nat}
    (hf : checkedFrom memory virtAddr check height table = some node) : leafFrom memory virtAddr height table = some node := by
  induction height generalizing table with
  | zero =>
    rw [checkedFrom] at hf
    rw [leafFrom]
    split at hf
    next both =>
      rw [Bool.and_eq_true] at both
      rw [← hf]
      exact if_pos both.1
    next => exact nomatch hf
  | succ height ih =>
    rw [checkedFrom] at hf
    rw [leafFrom]
    split at hf
    next => exact nomatch hf
    next both =>
      simp only [Bool.not_eq_true', Bool.not_eq_false, Bool.and_eq_true] at both
      rw [if_neg (by simp [both.1])]
      split at hf
      next large =>
        rw [if_pos large]
        exact hf
      next plain =>
        rw [if_neg plain]
        exact ih hf

theorem vaddrToPhysPage_leaf {page : PhysPage} (hf : memory.vaddrToPhysPage pml4 virtAddr = some page) :
    ∃ level entry, leaf memory virtAddr pml4 = some (level, entry) ∧
      page = ⟨maskedAddress virtAddr level entry, 2 ^ offsetBits level, entry⟩ := by
  rw [vaddrToPhysPage_eq] at hf
  obtain ⟨⟨level, entry⟩, checked, rfl⟩ := Option.map_eq_some_iff.mp hf
  exact ⟨level, entry, checkedFrom_leafFrom checked, rfl⟩

theorem leaf_or {level entry mask : Nat} (exact : mask = (2 ^ (52 - offsetBits level) - 1) * 2 ^ offsetBits level) :
    (entry &&& mask) ||| (virtAddr &&& (2 ^ offsetBits level - 1)) = leafAddress virtAddr level entry := by
  have low : virtAddr % 2 ^ offsetBits level < 2 ^ offsetBits level := Nat.mod_lt _ (Nat.two_pow_pos _)
  rw [exact, and_bitRange, Nat.and_two_pow_sub_one_eq_mod, Nat.mul_comm, ← Nat.two_pow_add_eq_or_of_lt low, Nat.mul_comm]
  rfl

theorem tableIndex_pageMask (virtAddr : Nat) {level : Nat} (bound : level ≤ 3) :
    tableIndex level (pageMask virtAddr) = tableIndex level virtAddr := by
  have masked : pageMask virtAddr = virtAddr / 2 ^ 12 % 2 ^ 52 * 2 ^ 12 := and_bitRange virtAddr 12 52
  have levels : level = 0 ∨ level = 1 ∨ level = 2 ∨ level = 3 := by omega
  rw [tableIndex_eq, tableIndex_eq, masked]
  rcases levels with rfl | rfl | rfl | rfl <;> omega

theorem leaf_pageMask : leaf memory (pageMask virtAddr) pml4 = leaf memory virtAddr pml4 := by
  rw [leaf_eq, leaf_eq, tableIndex_pageMask _ (by decide), tableIndex_pageMask _ (by decide),
    tableIndex_pageMask _ (by decide), tableIndex_pageMask _ (by decide)]

theorem masked_eq_leafAddress {level entry : Nat} (bound : level ≤ 2) :
    maskedAddress virtAddr level entry = leafAddress virtAddr level entry ↔ entry / 2 ^ 12 % 2 ^ (9 * level) = 0 := by
  unfold maskedAddress leafAddress offsetBits
  rw [entryAddr_eq]
  have levels : level = 0 ∨ level = 1 ∨ level = 2 := by omega
  rcases levels with rfl | rfl | rfl <;> omega

theorem leaf_closed {tables : Nat → Prop} (closed : ∀ table, tables table → ∀ i < tableSize,
      present (memory.words table i) = true → tables (entryAddr (memory.words table i)) ∧ huge (memory.words table i) = false)
    (root : tables pml4) {level entry : Nat} (hf : leaf memory virtAddr pml4 = some (level, entry)) :
    level = 0 ∧ tables (entryAddr entry) := by
  have steps : ∀ height table, tables table → leafFrom memory virtAddr height table = some (level, entry) →
      level = 0 ∧ tables (entryAddr entry) := by
    intro height
    induction height with
    | zero =>
      intro table isTable hf
      rw [leafFrom] at hf
      split at hf
      next h =>
        cases hf
        exact ⟨rfl, (closed table isTable _ (tableIndex_lt _ _) h).1⟩
      next => exact nomatch hf
    | succ height ih =>
      intro table isTable hf
      rw [leafFrom] at hf
      cases h : present (memory.words table (tableIndex (height + 1) virtAddr)) with
      | false =>
        simp only [h, Bool.not_false, if_true] at hf
        exact nomatch hf
      | true =>
        obtain ⟨next, plain⟩ := closed table isTable _ (tableIndex_lt _ _) h
        simp only [h, plain, Bool.not_true, Bool.false_eq_true, if_false, and_false] at hf
        exact ih _ next hf
  exact steps 3 pml4 root hf

end

end RosKernel.Memory
