import RosKernel.Memory.UserCopy

/-! Copies over ranges of user addresses.

A range is walked page by page, and within a page one walk stands for all addresses. So a copy is described byte by byte:
where each address of the range leads to.
-/

set_option autoImplicit false

namespace RosKernel.Memory

open List

section

variable {memory : PageMemory} {pml4 virtAddr other : Nat} {check : Nat → Bool}

theorem tableIndex_congr {level height : Nat} (upper : level ≤ height)
    (eq : other / 2 ^ offsetBits level = virtAddr / 2 ^ offsetBits level) :
    tableIndex height other = tableIndex height virtAddr := by
  obtain ⟨more, rfl⟩ := Nat.exists_eq_add_of_le upper
  have split : 2 ^ (12 + 9 * (level + more)) = 2 ^ offsetBits level * 2 ^ (9 * more) := by
    rw [← Nat.pow_add, offsetBits]
    congr 1
    omega
  rw [tableIndex_eq, tableIndex_eq, split, ← Nat.div_div_eq_div_mul, ← Nat.div_div_eq_div_mul, eq]

section

variable {height table level entry : Nat} (hf : checkedFrom memory virtAddr check height table = some (level, entry))
include hf

theorem checkedFrom_level : level ≤ height := by
  induction height generalizing table with
  | zero =>
    rw [checkedFrom] at hf
    split at hf
    · cases hf
      exact Nat.le_refl 0
    · cases hf
  | succ height ih =>
    rw [checkedFrom] at hf
    split at hf
    · cases hf
    · split at hf
      · cases hf
        exact Nat.le_refl _
      · exact Nat.le_succ_of_le (ih hf)

theorem checkedFrom_page (eq : other / 2 ^ offsetBits level = virtAddr / 2 ^ offsetBits level) :
    checkedFrom memory other check height table = some (level, entry) := by
  have upper := checkedFrom_level hf
  induction height generalizing table with
  | zero =>
    rw [checkedFrom] at hf ⊢
    rw [tableIndex_congr upper eq]
    exact hf
  | succ height ih =>
    rw [checkedFrom] at hf ⊢
    rw [tableIndex_congr upper eq]
    split at hf
    · cases hf
    next passed =>
      simp only [passed]
      split at hf
      next large =>
        rw [if_pos large]
        exact hf
      next plain =>
        rw [if_neg plain]
        exact ih hf (checkedFrom_level hf)

end

theorem vaddrToPhysPage_rest {page : PhysPage} (lt : virtAddr < 2 ^ 64)
    (hf : memory.vaddrToPhysPage pml4 virtAddr = some page) {k : Nat} (hin : k < page.size - virtAddr % page.size) :
    virtAddr + k < 2 ^ 64 ∧ memory.vaddrToPhysPage pml4 (virtAddr + k) = some { page with physAddr := page.physAddr + k } := by
  rw [vaddrToPhysPage_eq] at hf
  obtain ⟨⟨level, entry⟩, checked, rfl⟩ := Option.map_eq_some_iff.mp hf
  have bound : level ≤ 3 := checkedFrom_level checked
  have pos : 0 < 2 ^ offsetBits level := Nat.two_pow_pos _
  have low := Nat.mod_lt virtAddr pos
  have split := Nat.div_add_mod virtAddr (2 ^ offsetBits level)
  simp only at hin
  have quotient : (virtAddr + k) / 2 ^ offsetBits level = virtAddr / 2 ^ offsetBits level := by
    apply Nat.div_eq_of_lt_le
    · rw [Nat.mul_comm]
      omega
    · rw [Nat.succ_mul, Nat.mul_comm]
      omega
  have rest : (virtAddr + k) % 2 ^ offsetBits level = virtAddr % 2 ^ offsetBits level + k := by
    have := Nat.div_add_mod (virtAddr + k) (2 ^ offsetBits level)
    rw [quotient] at this
    omega
  constructor
  · -- pages do not run past the last addr
    have size : 2 ^ offsetBits level ∣ 2 ^ 64 := Nat.pow_dvd_pow 2 (by unfold offsetBits; omega)
    obtain ⟨count, whole⟩ := size
    have high : virtAddr / 2 ^ offsetBits level < count := by
      apply Nat.div_lt_of_lt_mul
      rw [← whole]
      exact lt
    have ends : 2 ^ offsetBits level * (virtAddr / 2 ^ offsetBits level + 1) ≤ 2 ^ 64 := by
      rw [whole]
      exact Nat.mul_le_mul_left _ high
    rw [Nat.mul_add, Nat.mul_one] at ends
    omega
  · rw [vaddrToPhysPage_eq, checkedLeaf, checkedFrom_page checked quotient]
    simp only [Option.map_some, maskedAddress, rest, Nat.add_assoc]

theorem size_pos {page : PhysPage} (hf : memory.vaddrToPhysPage pml4 virtAddr = some page) :
    0 < page.size - virtAddr % page.size := by
  obtain ⟨level, entry, _, rfl⟩ := vaddrToPhysPage_leaf hf
  have low := Nat.mod_lt virtAddr (Nat.two_pow_pos (offsetBits level))
  dsimp only
  omega

end

section

variable {memory memory' : PageMemory} {pml4 : Nat}

/-- Present and open to user space at every level. -/
def Accessible (memory : PageMemory) (pml4 virtAddr : Nat) : Prop := (checkedLeaf memory virtAddr user pml4).isSome = true

def writable (entry : Nat) : Bool := entry &&& pageRW != 0

def Writable (memory : PageMemory) (pml4 virtAddr : Nat) : Prop :=
  (checkedLeaf memory virtAddr (fun entry => user entry && writable entry) pml4).isSome = true

/-- Where the copies find a byte. -/
def physOf (memory : PageMemory) (pml4 virtAddr : Nat) : Nat :=
  ((memory.vaddrToPhysPage pml4 virtAddr).map PhysPage.physAddr).getD 0

theorem accessible_iff {virtAddr : Nat} :
    Accessible memory pml4 virtAddr ↔ ∃ page, memory.vaddrToPhysPage pml4 virtAddr = some page := by
  rw [Accessible, vaddrToPhysPage_eq]
  cases checkedLeaf memory virtAddr user pml4 with
  | none => simp
  | some node => simp

theorem physOf_rest {virtAddr : Nat} {page : PhysPage} (lt : virtAddr < 2 ^ 64)
    (hf : memory.vaddrToPhysPage pml4 virtAddr = some page) {k : Nat} (hin : k < page.size - virtAddr % page.size) :
    Accessible memory pml4 (add64 virtAddr k) ∧ physOf memory pml4 (add64 virtAddr k) = page.physAddr + k := by
  obtain ⟨bound, rest⟩ := vaddrToPhysPage_rest lt hf hin
  rw [add64_eq bound, accessible_iff, physOf, rest]
  exact ⟨⟨_, rfl⟩, rfl⟩

theorem forall_chunk {P : Nat → Prop} {addr chunk remaining : Nat} (short : chunk ≤ remaining)
    (head : ∀ k < chunk, P (add64 addr k)) :
    (∀ k < remaining - chunk, P (add64 (add64 addr chunk) k)) ↔ ∀ k < remaining, P (add64 addr k) := by
  simp only [add64_add64]
  constructor
  · intro all k hin
    by_cases early : k < chunk
    · exact head k early
    · have later := all (k - chunk) (by omega)
      rwa [show chunk + (k - chunk) = k by omega] at later
  · exact fun all k hin => all (chunk + k) (by omega)

theorem copyFromUserRounds_spec {rounds src remaining : Nat} (enough : remaining ≤ rounds) (lt : src < 2 ^ 64) :
    ((memory.copyFromUserRounds pml4 rounds src remaining).1 = true ↔
        ∀ k < remaining, Accessible memory pml4 (add64 src k)) ∧
      ((memory.copyFromUserRounds pml4 rounds src remaining).1 = true →
        (memory.copyFromUserRounds pml4 rounds src remaining).2 =
          (range remaining).map fun k => memory.byteAt (physOf memory pml4 (add64 src k))) := by
  induction rounds generalizing src remaining with
  | zero =>
    obtain rfl := Nat.le_zero.mp enough
    exact ⟨⟨fun _ k absent => absurd absent (Nat.not_lt_zero k), fun _ => rfl⟩, fun _ => rfl⟩
  | succ rounds ih =>
    rw [PageMemory.copyFromUserRounds]
    by_cases done : remaining = 0
    · grind
    rw [if_neg done]
    have first : add64 src 0 = src := add64_eq lt
    cases hf : memory.vaddrToPhysPage pml4 src with
    | none =>
      have lost : ¬Accessible memory pml4 src := by
        rw [accessible_iff, hf]
        rintro ⟨page, h⟩
        cases h
      constructor
      · constructor
        · intro wrong
          cases wrong
        · grind
      · intro wrong
        cases wrong
    | some page =>
      simp only
      have pos := size_pos hf
      generalize chunked : (if page.size - src % page.size < remaining then page.size - src % page.size else remaining) = chunk
      have some_ : 0 < chunk := by
        rw [← chunked]
        split <;> omega
      have within : chunk ≤ page.size - src % page.size := by
        rw [← chunked]
        split <;> omega
      have short : chunk ≤ remaining := by
        rw [← chunked]
        split <;> omega
      have rest := @ih (add64 src chunk) (remaining - chunk) (by omega) (add64_lt _ _)
      have head : ∀ k < chunk, Accessible memory pml4 (add64 src k) ∧ physOf memory pml4 (add64 src k) = page.physAddr + k :=
        fun k hin => physOf_rest lt hf (by omega)
      constructor
      · exact rest.1.trans (forall_chunk short fun k hin => (head k hin).1)
      · intro ok
        have parts : range remaining = range chunk ++ (range (remaining - chunk)).map (chunk + ·) := by
          rw [← range_add, show chunk + (remaining - chunk) = remaining by omega]
        rw [rest.2 ok, parts, map_append, map_map]
        apply congrArg₂ (· ++ ·)
        · apply map_congr_left
          intro k hin
          rw [(head k (mem_range.mp hin)).2]
        · apply map_congr_left
          intro k _
          rw [add64_add64]
          rfl

theorem copyFromUser_spec {src : Nat} (lt : src < 2 ^ 64) (len : Nat) :
    ((memory.copyFromUser pml4 src len).1 = true ↔
        len = 0 ∨ src ≠ 0 ∧ ∀ k < len, Accessible memory pml4 (add64 src k)) ∧
      ((memory.copyFromUser pml4 src len).1 = true → (memory.copyFromUser pml4 src len).2 =
        (range len).map fun k => memory.byteAt (physOf memory pml4 (add64 src k))) := by
  unfold PageMemory.copyFromUser
  by_cases empty : len = 0
  · grind
  rw [if_neg empty]
  by_cases null : src = 0
  · rw [if_pos null]
    constructor
    · constructor
      · intro wrong
        exact nomatch wrong
      · omega
    · intro wrong
      exact nomatch wrong
  · rw [if_neg null]
    have rounds := @copyFromUserRounds_spec memory pml4 len src len (Nat.le_refl _) lt
    refine ⟨?_, rounds.2⟩
    rw [rounds.1]
    simp [empty, null]

end

section

variable {memory between : PageMemory} {pml4 : Nat} {phys : Nat → Nat}

/-- The bytes of a range, one after the other, where its addresses lead. -/
def writeThrough (phys : Nat → Nat) (memory : PageMemory) (dst : Nat) : List UInt8 → PageMemory
  | [] => memory
  | byte :: bytes => writeThrough phys (memory.setByte (phys dst) byte) (add64 dst 1) bytes

theorem writeThrough_append (memory : PageMemory) {dst : Nat} (lt : dst < 2 ^ 64) (bytes more : List UInt8) :
    writeThrough phys memory dst (bytes ++ more) =
      writeThrough phys (writeThrough phys memory dst bytes) (add64 dst bytes.length) more := by
  induction bytes generalizing memory dst with
  | nil =>
    rw [length_nil, add64_eq (by omega)]
    rfl
  | cons byte bytes ih =>
    rw [cons_append, writeThrough, ih _ (add64_lt _ _), add64_add64, length_cons, Nat.add_comm 1]
    rfl

theorem writeThrough_chunk (memory : PageMemory) {dst addr : Nat} (lt : dst < 2 ^ 64) {bytes : List UInt8}
    (behind : ∀ k < bytes.length, phys (add64 dst k) = addr + k) :
    writeThrough phys memory dst bytes = memory.writeBytes addr bytes := by
  induction bytes generalizing memory dst addr with
  | nil => rfl
  | cons byte bytes ih =>
    have first := behind 0 (Nat.zero_lt_succ _)
    rw [add64_eq (by omega), Nat.add_zero, Nat.add_zero] at first
    rw [writeThrough, PageMemory.writeBytes, first]
    apply ih _ (add64_lt _ _)
    intro k hin
    rw [add64_add64, behind (1 + k) (by rw [length_cons]; omega)]
    omega

theorem byteAt_writeThrough_outside {dst pos : Nat} {bytes : List UInt8}
    (out : ∀ k < bytes.length, phys (add64 dst k) ≠ pos) (lt : dst < 2 ^ 64) :
    (writeThrough phys memory dst bytes).byteAt pos = memory.byteAt pos := by
  induction bytes generalizing memory dst with
  | nil => rfl
  | cons byte bytes ih =>
    have first := out 0 (Nat.zero_lt_succ _)
    rw [add64_eq (by omega), Nat.add_zero] at first
    rw [writeThrough, ih _ (add64_lt _ _), byteAt_setByte, Function.update_of_ne first.symm]
    intro k hin
    rw [add64_add64]
    exact out (1 + k) (by rw [length_cons]; omega)

theorem byteAt_writeThrough {dst : Nat} (lt : dst < 2 ^ 64) {bytes : List UInt8} {k : Nat} (hin : k < bytes.length)
    (last : ∀ j, k < j → j < bytes.length → phys (add64 dst j) ≠ phys (add64 dst k)) :
    (writeThrough phys memory dst bytes).byteAt (phys (add64 dst k)) = bytes[k] := by
  induction bytes generalizing memory dst k with
  | nil => exact absurd hin (Nat.not_lt_zero k)
  | cons byte bytes ih =>
    rw [writeThrough]
    cases k with
    | zero =>
      have first : add64 dst 0 = dst := add64_eq lt
      rw [byteAt_writeThrough_outside _ (add64_lt _ _), byteAt_setByte, first, Function.update_self]
      · rfl
      · intro j later
        rw [add64_add64]
        exact last (1 + j) (by omega) (by rw [length_cons]; omega)
    | succ k =>
      have later := @ih (memory.setByte (phys dst) byte) (add64 dst 1) (add64_lt _ _) k (by
        rw [length_cons] at hin
        omega) (by
        intro j above below
        rw [add64_add64, add64_add64, Nat.add_comm 1 k]
        exact last (1 + j) (by omega) (by rw [length_cons]; omega))
      rw [add64_add64, Nat.add_comm 1 k] at later
      exact later

/-- No byte of the range lies in a table of the address space. -/
def OffTables (memory : PageMemory) (pml4 dst len : Nat) : Prop :=
  ∀ k < len, ∀ page, memory.vaddrToPhysPage pml4 (add64 dst k) = some page → ¬memory.IsTable pml4 (frameOf page.physAddr)

/-- The tables are as they were. -/
def KeepsTables (memory between : PageMemory) (pml4 : Nat) : Prop :=
  ∀ table, memory.IsTable pml4 table → between.words table = memory.words table

theorem KeepsTables.walk (keeps : KeepsTables memory between pml4) (virtAddr : Nat) :
    between.vaddrToPhysPage pml4 virtAddr = memory.vaddrToPhysPage pml4 virtAddr := vaddrToPhysPage_congr keeps virtAddr

theorem KeepsTables.writeBytes (keeps : KeepsTables memory between pml4) {addr : Nat} {bytes : List UInt8}
    (off : ∀ k < bytes.length, ¬memory.IsTable pml4 (frameOf (addr + k))) :
    KeepsTables memory (between.writeBytes addr bytes) pml4 := by
  intro table isTable
  rw [← keeps table isTable]
  funext i
  apply writeBytes_words
  rintro k hin rfl
  exact off k hin isTable

theorem copyToUserRounds_spec {rounds dst : Nat} {bytes : List UInt8} (enough : bytes.length ≤ rounds) (lt : dst < 2 ^ 64)
    (keeps : KeepsTables memory between pml4) (off : OffTables memory pml4 dst bytes.length) :
    ((PageMemory.copyToUserRounds pml4 rounds dst bytes between).1 = true ↔
        ∀ k < bytes.length, Accessible memory pml4 (add64 dst k)) ∧
      ((PageMemory.copyToUserRounds pml4 rounds dst bytes between).1 = true →
        (PageMemory.copyToUserRounds pml4 rounds dst bytes between).2 =
            writeThrough (physOf memory pml4) between dst bytes ∧
          KeepsTables memory (PageMemory.copyToUserRounds pml4 rounds dst bytes between).2 pml4) := by
  induction rounds generalizing dst bytes between with
  | zero =>
    cases eq_nil_of_length_eq_zero (Nat.le_zero.mp enough)
    exact ⟨⟨fun _ k absent => absurd absent (Nat.not_lt_zero k), fun _ => rfl⟩, fun _ => ⟨rfl, keeps⟩⟩
  | succ rounds ih =>
    rw [PageMemory.copyToUserRounds]
    by_cases done : bytes.length = 0
    · cases eq_nil_of_length_eq_zero done
      exact ⟨⟨fun _ k absent => absurd absent (Nat.not_lt_zero k), fun _ => rfl⟩, fun _ => ⟨rfl, keeps⟩⟩
    rw [if_neg done, keeps.walk]
    have first : add64 dst 0 = dst := add64_eq lt
    cases hf : memory.vaddrToPhysPage pml4 dst with
    | none =>
      have lost : ¬Accessible memory pml4 dst := by
        rw [accessible_iff, hf]
        rintro ⟨page, h⟩
        exact nomatch h
      constructor
      · constructor
        · intro wrong
          exact nomatch wrong
        · grind
      · intro wrong
        exact nomatch wrong
    | some page =>
      simp only
      have pos := size_pos hf
      generalize chunked : (if page.size - dst % page.size < bytes.length then page.size - dst % page.size
        else bytes.length) = chunk
      have within : chunk ≤ page.size - dst % page.size ∧ chunk ≤ bytes.length ∧ 0 < chunk := by
        rw [← chunked]
        split <;> omega
      have length : (bytes.take chunk).length = chunk := length_take_of_le within.2.1
      have rest : (bytes.drop chunk).length = bytes.length - chunk := length_drop
      have head : ∀ k < chunk, Accessible memory pml4 (add64 dst k) ∧ physOf memory pml4 (add64 dst k) = page.physAddr + k :=
        fun k hin => physOf_rest lt hf (by omega)
      have written : writeThrough (physOf memory pml4) between dst (bytes.take chunk) =
          between.writeBytes page.physAddr (bytes.take chunk) :=
        writeThrough_chunk between lt fun k hin => (head k (by omega)).2
      have kept : KeepsTables memory (between.writeBytes page.physAddr (bytes.take chunk)) pml4 := by
        apply keeps.writeBytes
        intro k hin
        obtain ⟨bound, h⟩ := vaddrToPhysPage_rest lt hf (k := k) (by omega)
        rw [← add64_eq bound] at h
        have away := off k (by omega) _ h
        exact away
      obtain ⟨access, res⟩ := @ih _ (add64 dst chunk) (bytes.drop chunk) (by omega) (add64_lt dst chunk) kept (by
        intro k hin
        rw [add64_add64]
        exact off (chunk + k) (by omega))
      constructor
      · rw [access, rest]
        exact forall_chunk within.2.1 fun k hin => (head k hin).1
      · intro ok
        obtain ⟨eq, keepsAll⟩ := res ok
        refine ⟨?_, keepsAll⟩
        rw [eq, ← written]
        have whole := @writeThrough_append (physOf memory pml4) between _ lt (bytes.take chunk) (bytes.drop chunk)
        rw [take_append_drop, length] at whole
        exact whole.symm

theorem copyToUser_spec {dst : Nat} {bytes : List UInt8} (lt : dst < 2 ^ 64)
    (off : OffTables memory pml4 dst bytes.length) :
    ((memory.copyToUser pml4 dst bytes).1 = true ↔
        bytes.length = 0 ∨ dst ≠ 0 ∧ ∀ k < bytes.length, Accessible memory pml4 (add64 dst k)) ∧
      ((memory.copyToUser pml4 dst bytes).1 = true →
        (memory.copyToUser pml4 dst bytes).2 = writeThrough (physOf memory pml4) memory dst bytes ∧
          KeepsTables memory (memory.copyToUser pml4 dst bytes).2 pml4) := by
  unfold PageMemory.copyToUser
  by_cases empty : bytes.length = 0
  · cases eq_nil_of_length_eq_zero empty
    exact ⟨⟨fun _ => .inl rfl, fun _ => rfl⟩, fun _ => ⟨rfl, fun _ _ => rfl⟩⟩
  rw [if_neg empty]
  by_cases null : dst = 0
  · rw [if_pos null]
    constructor
    · constructor
      · intro wrong
        exact nomatch wrong
      · omega
    · intro wrong
      exact nomatch wrong
  · rw [if_neg null]
    have rounds := copyToUserRounds_spec (Nat.le_refl bytes.length) lt (fun _ _ => rfl : KeepsTables memory memory pml4) off
    refine ⟨?_, rounds.2⟩
    rw [rounds.1]
    constructor
    · intro all
      exact .inr ⟨null, all⟩
    · intro given
      exact (given.resolve_left empty).2

end

section

variable {memory : PageMemory} {pml4 : Nat}

/-- No address of the range has a large page with bits set below its frame. -/
def ClearLeaves (memory : PageMemory) (pml4 addr len : Nat) : Prop :=
  ∀ k < len, ∀ level entry, leaf memory (add64 addr k) pml4 = some (level, entry) → entry / 2 ^ 12 % 2 ^ (9 * level) = 0

theorem physOf_translation {virtAddr : Nat} (access : Accessible memory pml4 virtAddr)
    (clear : ∀ level entry, leaf memory virtAddr pml4 = some (level, entry) → entry / 2 ^ 12 % 2 ^ (9 * level) = 0) :
    translation memory virtAddr pml4 = some (physOf memory pml4 virtAddr) := by
  obtain ⟨page, hf⟩ := accessible_iff.mp access
  obtain ⟨level, entry, leaf_, rfl⟩ := vaddrToPhysPage_leaf hf
  rw [physOf, hf, translation, leaf_]
  exact congrArg some ((masked_eq_leafAddress (level_le _ _ _ leaf_)).mpr (clear level entry leaf_)).symm

/-- `CopyFromUser` succeeds on a range that user space may use, unless it starts at the null pointer. A range that lies off
the tables can be copied to and read back. -/
theorem user_copies_exact {addr : Nat} (small : addr < 2 ^ 64) :
    (∀ len, (memory.copyFromUser pml4 addr len).1 = true ↔
        len = 0 ∨ addr ≠ 0 ∧ ∀ k < len, Accessible memory pml4 (add64 addr k)) ∧
      ∀ bytes : List UInt8, OffTables memory pml4 addr bytes.length → (memory.copyToUser pml4 addr bytes).1 = true →
        (∀ k < bytes.length, Accessible memory pml4 (add64 addr k)) ∧
        (ClearLeaves memory pml4 addr bytes.length →
          ((∀ j k, j < k → k < bytes.length →
              translation memory (add64 addr j) pml4 ≠ translation memory (add64 addr k) pml4) →
            (memory.copyToUser pml4 addr bytes).2.copyFromUser pml4 addr bytes.length = (true, bytes)) ∧
          ∀ pos, (∀ k < bytes.length, translation memory (add64 addr k) pml4 ≠ some pos) →
            (memory.copyToUser pml4 addr bytes).2.byteAt pos = memory.byteAt pos) := by
  refine ⟨fun len => (copyFromUser_spec small len).1, fun bytes off ok => ?_⟩
  obtain ⟨ends, res⟩ := copyToUser_spec small off
  obtain ⟨written, keeps⟩ := res ok
  have access : ∀ k < bytes.length, Accessible memory pml4 (add64 addr k) := by
    intro k hin
    exact ((ends.mp ok).resolve_left (Nat.ne_zero_of_lt hin)).2 k hin
  refine ⟨access, fun clear => ⟨fun dist => ?_, fun pos away => ?_⟩⟩
  · have leads : ∀ k < bytes.length, translation memory (add64 addr k) pml4 = some (physOf memory pml4 (add64 addr k)) :=
      fun k hin => physOf_translation (access k hin) (clear k hin)
    generalize (memory.copyToUser pml4 addr bytes).2 = memory' at written keeps
    have sameWalk := keeps.walk
    obtain ⟨again, read⟩ := @copyFromUser_spec memory' pml4 addr small bytes.length
    have okAgain : (memory'.copyFromUser pml4 addr bytes.length).1 = true := by
      apply again.mpr
      apply (ends.mp ok).imp_right
      rintro ⟨nonnull, all⟩
      refine ⟨nonnull, fun k hin => ?_⟩
      rw [accessible_iff, sameWalk, ← accessible_iff]
      exact all k hin
    refine Prod.ext okAgain ((read okAgain).trans ?_)
    apply ext_getElem
    · simp
    · intro k _ hin
      have place : physOf memory' pml4 (add64 addr k) = physOf memory pml4 (add64 addr k) := by
        rw [physOf, sameWalk]
        rfl
      rw [getElem_map, getElem_range, place, written]
      apply byteAt_writeThrough small hin
      intro j later short eq
      apply dist k j later short
      rw [leads k hin, leads j short, eq]
  · rw [written]
    apply byteAt_writeThrough_outside _ small
    intro k hin eq
    apply away k hin
    rw [physOf_translation (access k hin) (clear k hin), eq]

/-- Pages from the null pointer on: one of data, one to be read only, two that share a frame, and the page table itself. -/
def sharedTables : PageMemory := ⟨⟨fun _ => 0, fun _ => 0⟩,
  fun frame i =>
    if frame = 0x2000 then if i = 0 then 0x3007 else 0
    else if frame = 0x3000 then if i = 0 then 0x4007 else 0
    else if frame = 0x4000 then if i = 0 then 0x5007 else 0
    else if frame = 0x5000 then
      if i = 0 then 0x6007 else if i = 1 then 0x7005 else if i = 2 then 0x7007 else if i = 3 then 0x7007
      else if i = 4 then 0x5007 else 0
    else 0, []⟩

theorem sharedTables_tables {table : Nat} (isTable : sharedTables.IsTable 0x2000 table) :
    table ∈ [0x2000, 0x3000, 0x4000, 0x5000] := by
  have nodes : ∀ node ∈ [(3, 0x2000), (2, 0x3000), (1, 0x4000), (0, 0x5000)], ∀ i < tableSize,
      ∀ next ∈ below (sharedTables.levelEntry node i), next ∈ [(3, 0x2000), (2, 0x3000), (1, 0x4000), (0, 0x5000)] := by
    intro node mem i _
    simp only [mem_cons, not_mem_nil, or_false] at mem
    rcases mem with rfl | rfl | rfl | rfl
    all_goals
      simp only [PageMemory.levelEntry, sharedTables, Nat.reduceEqDiff, if_true, if_false]
      repeat' split
      all_goals decide
  obtain ⟨path, level, hin, hr⟩ := isTable
  have walked : ∀ path node, Indices path → sharedTables.tableAt 0x2000 path = some node →
      node ∈ [(3, 0x2000), (2, 0x3000), (1, 0x4000), (0, 0x5000)] := by
    intro path
    induction path with
    | nil =>
      intro node _ hr
      cases hr
      decide
    | cons i path ih =>
      intro node hin hr
      obtain ⟨parent, above, named⟩ := Option.bind_eq_some_iff.mp hr
      exact nodes parent (ih parent hin.tail above) i hin.head node named
  have mem := mem_map_of_mem (f := Prod.snd) (walked path _ hin hr)
  exact mem

theorem two_bytes_copied : (sharedTables.copyToUser 0x2000 0x2000 [1, 2]).2.copyFromUser 0x2000 0x2000 2 = (true, [1, 2]) := by
  have off : OffTables sharedTables 0x2000 0x2000 [1, 2].length := by
    intro k hin page hf isTable
    have frame : ∀ k < 2, ∀ page ∈ sharedTables.vaddrToPhysPage 0x2000 (add64 0x2000 k),
        frameOf page.physAddr ∉ [0x2000, 0x3000, 0x4000, 0x5000] := by decide +kernel
    exact frame k hin page hf (sharedTables_tables isTable)
  have clear : ∀ k < 2, ∀ node ∈ leaf sharedTables (add64 0x2000 k) 0x2000, node.2 / 2 ^ 12 % 2 ^ (9 * node.1) = 0 := by
    decide +kernel
  have dist : ∀ k < 2, ∀ j < k, translation sharedTables (add64 0x2000 j) 0x2000 ≠
      translation sharedTables (add64 0x2000 k) 0x2000 := by decide +kernel
  exact (((user_copies_exact (by decide)).2 [1, 2] off (by decide +kernel)).2
    (fun k hin level entry hf => clear k hin (level, entry) hf)).1
    fun j k pre hin => dist k hin j pre

/-- A page to be read only is written, the null pointer is refused, of two pages in one frame only the last is read back, and
a page table that is overwritten takes the range with it. -/
theorem user_copies_limits :
    ((sharedTables.copyToUser 0x2000 0x1000 [1]).1 = true ∧ ¬Writable sharedTables 0x2000 0x1000) ∧
    ((sharedTables.copyFromUser 0x2000 0 1).1 = false ∧ Accessible sharedTables 0x2000 0) ∧
    ((sharedTables.copyToUser 0x2000 0x2000 (replicate 4096 0 ++ [1])).1 = true ∧
      (sharedTables.copyToUser 0x2000 0x2000 (replicate 4096 0 ++ [1])).2.copyFromUser 0x2000 0x2000 4097 ≠
        (true, replicate 4096 0 ++ [1])) ∧
    (sharedTables.copyToUser 0x2000 0x4020 (replicate 8 0)).1 = true ∧
      ((sharedTables.copyToUser 0x2000 0x4020 (replicate 8 0)).2.copyFromUser 0x2000 0x4020 8).1 = false := by
  refine ⟨⟨by decide +kernel, by unfold Writable; decide +kernel⟩, ⟨by decide +kernel, by unfold Accessible; decide +kernel⟩,
    ?_, by decide +kernel, by decide +kernel⟩
  -- both pages lead to one frame
  have walk : ∀ k < 4097, sharedTables.vaddrToPhysPage 0x2000 (add64 0x2000 k) = some ⟨0x7000 + k % 4096, 4096, 0x7007⟩ := by
    intro k hin
    by_cases early : k < 4096
    · obtain ⟨bound, h⟩ := @vaddrToPhysPage_rest sharedTables 0x2000 0x2000 ⟨0x7000, 4096, 0x7007⟩ (by decide) (by decide +kernel) k
        (by dsimp only; omega)
      rw [add64_eq bound, h, Nat.mod_eq_of_lt early]
    · obtain rfl : k = 4096 := by omega
      decide +kernel
  obtain ⟨bytes, made⟩ : ∃ bytes, bytes = replicate 4096 (0 : UInt8) ++ [1] := ⟨_, rfl⟩
  have length : bytes.length = 4097 := by rw [made, length_append, length_replicate, length_singleton]
  rw [← made]
  have off : OffTables sharedTables 0x2000 0x2000 bytes.length := by
    intro k hin page hf isTable
    rw [walk k (by omega)] at hf
    cases hf
    have frame : frameOf (0x7000 + k % 4096) = 0x7000 := by
      unfold frameOf pageSize
      omega
    rw [frame] at isTable
    exact absurd (sharedTables_tables isTable) (by decide)
  obtain ⟨ends, res⟩ := copyToUser_spec (by decide) off
  have ok := ends.mpr (.inr ⟨by decide, fun k hin => accessible_iff.mpr ⟨_, walk k (by omega)⟩⟩)
  obtain ⟨written, keeps⟩ := res ok
  refine ⟨ok, fun eq => ?_⟩
  have read := (@copyFromUser_spec _ 0x2000 0x2000 (by decide) 4097).2 (congrArg Prod.fst eq)
  rw [eq] at read
  have place : ∀ k < 4097, physOf sharedTables 0x2000 (add64 0x2000 k) = 0x7000 + k % 4096 := by
    intro k hin
    rw [physOf, walk k hin]
    rfl
  have last := @byteAt_writeThrough sharedTables (physOf sharedTables 0x2000) 0x2000 (by decide) bytes 4096 (by omega)
    fun j above below => by omega
  generalize (sharedTables.copyToUser 0x2000 0x2000 bytes).2 = memory' at *
  have samePlace : physOf memory' 0x2000 (add64 0x2000 0) = 0x7000 := by
    rw [physOf, keeps.walk]
    exact place 0 (by decide)
  have first := congrArg List.head? read
  have front : bytes.head? = some 0 := by
    rw [made, head?_append, head?_replicate]
    rfl
  have back : bytes[4096] = 1 := by
    simp only [made]
    rw [getElem_append_right (by rw [length_replicate])]
    simp only [length_replicate, Nat.sub_self, getElem_singleton]
  rw [head?_map, head?_range, if_neg (by decide), Option.map_some, samePlace, written,
    show 0x7000 = physOf sharedTables 0x2000 (add64 0x2000 4096) from (place 4096 (by decide)).symm, last, back, front] at first
  exact absurd first (by decide)

end

end RosKernel.Memory
