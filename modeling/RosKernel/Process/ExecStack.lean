import RosKernel.Library.Descent
import RosKernel.Memory.UserCopy
import RosKernel.Process.Mmap

/-! The stack that `Sys_Execve` builds, `kernel/usrlndtrnstn/syscall/process.cpp`.

Its pages are written through the direct map at the frames in `stack_phys`. That array has eight entries; what a larger index
reads is whatever lies behind it. As long as the stack has room, a push writes its object at one place and nothing else, and
a sequence of pushes is described by its cursor alone. Loops that print are left out.
-/

set_option autoImplicit false

namespace RosKernel.Process

open Library Memory List

def maxArgc : Nat := 64

def maxEnvp : Nat := 128

/-- A `Memcpy` to the stack, with the cursor at that time. -/
structure StackWrite where
  cur : Nat
  pageIndex : Nat
  deriving DecidableEq

/-- `writes` is a history. -/
structure ExecStack where
  cur : Nat
  memory : PageMemory
  writes : List StackWrite

/-- The loop that maps the stack, from page `i` on, and the frames it takes. Without a frame the call fails. What `MapPages`
returns is not looked at. -/
def mapStackFrom (newPML4 : Nat) : Nat → Nat → PageMemory → Option (List Nat) × PageMemory
  | _, 0, memory => (some [], memory)
  | i, count + 1, memory =>
    let (phys, memory) := memory.allocPage
    if phys ≠ 0 then
      let rest := mapStackFrom newPML4 (i + 1) count (memory.mapPages newPML4 phys (stackBase + i * 0x1000) 1 7).2
      (rest.1.map (phys :: ·), rest.2)
    else (none, memory)

def mapStack (newPML4 : Nat) (memory : PageMemory) : Option (List Nat) × PageMemory :=
  mapStackFrom newPML4 0 userStackPages memory

def stackPhys (frames : List Nat) (behind : Nat → Nat) (i : Nat) : Nat := frames.getD i (behind i)

def align8 (cur : Nat) : Nat := cur &&& 0xFFFFFFFFFFFFFFF8

section

variable (phys : Nat → Nat)

/-- The loop of `push_bytes_to_newstack` from `offset` on; every round copies at least a byte. -/
def copyChunks : Nat → Nat → List UInt8 → ExecStack → ExecStack
  | 0, _, _, stack => stack
  | rounds + 1, offset, src, stack =>
    if src.length = 0 then stack
    else
      let pageIndex := offset / 0x1000
      let pageOff := offset % 0x1000
      let canCopy := if src.length < 0x1000 - pageOff then src.length else 0x1000 - pageOff
      copyChunks rounds (add64 offset canCopy) (src.drop canCopy) { stack with
        memory := stack.memory.writeBytes (phys pageIndex + pageOff) (src.take canCopy)
        writes := stack.writes ++ [⟨stack.cur, pageIndex⟩] }

/-- `push_bytes_to_newstack`, which returns the cursor. -/
def pushBytes (src : List UInt8) (stack : ExecStack) : Nat × ExecStack :=
  let cur := align8 (sub64 stack.cur src.length)
  (cur, copyChunks phys src.length (sub64 cur stackBase) src { stack with cur := cur })

/-- The lines that push a pointer or a number. -/
def pushWord (value : Nat) (stack : ExecStack) : ExecStack :=
  let cur := align8 (sub64 stack.cur 8)
  let offset := sub64 cur stackBase
  let pageIndex := offset / 0x1000
  let pageOff := offset % 0x1000
  { cur := cur
    memory := stack.memory.writeBytes (phys pageIndex + pageOff) (wordBytes value)
    writes := stack.writes ++ [⟨cur, pageIndex⟩] }

end

section

variable (phys : Nat → Nat) (pml4 : Nat)

/-- The string at `userPtr` from byte `idx` on, without its end: at most `left` bytes. -/
def readStringFrom (memory : PageMemory) (userPtr : Nat) : Nat → Nat → Option (List UInt8)
  | 0, _ => some []
  | left + 1, idx =>
    let read := memory.copyFromUser pml4 (add64 userPtr idx) 1
    if !read.1 then none
    else
      let ch := read.2.headD 0
      if ch = 0 then some [] else (readStringFrom memory userPtr left (idx + 1)).map (ch :: ·)

def readString (memory : PageMemory) (userPtr : Nat) : Option (List UInt8) := readStringFrom pml4 memory userPtr 1023 0

/-- `copy_user_string_to_newstack`; zero if the string cannot be read. -/
def copyUserString (userPtr : Nat) (stack : ExecStack) : Nat × ExecStack :=
  if userPtr = 0 then (0, stack)
  else
    match readString pml4 stack.memory userPtr with
    | none => (0, stack)
    | some string => pushBytes phys (string ++ [0]) stack

/-- The loop over `argv` or `envp` from entry `i` on, and the addresses of the copies. -/
def copyStrings (array : Nat) : Nat → Nat → ExecStack → List Nat × ExecStack
  | 0, _, stack => ([], stack)
  | left + 1, i, stack =>
    let read := stack.memory.copyFromUser pml4 (add64 array (mul64 i 8)) 8
    if !read.1 then ([], stack)
    else
      let userPtr := wordValue read.2
      if userPtr = 0 then ([], stack)
      else
        let (dest, stack) := copyUserString phys pml4 userPtr stack
        if dest = 0 then ([], stack)
        else
          let rest := copyStrings array left (i + 1) stack
          (dest :: rest.1, rest.2)

def copyArray (array limit : Nat) (stack : ExecStack) : List Nat × ExecStack :=
  if array ≠ 0 then copyStrings phys pml4 array limit 0 stack else ([], stack)

/-- Pointers are pushed in reverse. -/
def pushPointers (pointers : List Nat) (stack : ExecStack) : ExecStack :=
  pointers.foldr (fun pointer stack => pushWord phys pointer stack) stack

/-- The stack and the registers of the new program. -/
structure ExecStart where
  rsp : Nat
  rdi : Nat
  rsi : Nat
  rdx : Nat
  stack : ExecStack

def buildStack (userArgv userEnvp : Nat) (memory : PageMemory) : ExecStart :=
  let (argvPtrs, stack) := copyArray phys pml4 userArgv maxArgc ⟨userStackTop, memory, []⟩
  let (envpPtrs, stack) := copyArray phys pml4 userEnvp maxEnvp stack
  let stack := pushPointers phys envpPtrs (pushWord phys 0 stack)
  let envpUserPtr := if 0 < envpPtrs.length then stack.cur else 0
  let stack := pushPointers phys argvPtrs (pushWord phys 0 stack)
  let argvUserPtr := if 0 < argvPtrs.length then stack.cur else 0
  let stack := pushWord phys argvPtrs.length stack
  ⟨stack.cur, argvPtrs.length, argvUserPtr, envpUserPtr, stack⟩

end

/-- `stack_phys` names eight different frames. -/
structure StackFrames (phys : Nat → Nat) : Prop where
  aligned : ∀ i < userStackPages, phys i % pageSize = 0
  distinct : ∀ i < userStackPages, ∀ j < userStackPages, phys i = phys j → i = j

def stackSize : Nat := userStackPages * pageSize

/-- The physical address of an offset into the stack. -/
def spot (phys : Nat → Nat) (offset : Nat) : Nat := phys (offset / pageSize) + offset % pageSize

def StackWrite.InBounds (write : StackWrite) : Prop := stackBase ≤ write.cur ∧ write.pageIndex < userStackPages

section

variable {phys : Nat → Nat} {memory between memory' : PageMemory} {offset : Nat} {bytes more : List UInt8}

/-- The bytes are at their offset, and everything else is as before. -/
structure Stores (phys : Nat → Nat) (memory : PageMemory) (offset : Nat) (bytes : List UInt8) (memory' : PageMemory) :
    Prop where
  inside : ∀ k (short : k < bytes.length), memory'.byteAt (spot phys (offset + k)) = bytes[k]
  around : ∀ other < stackSize, other < offset ∨ offset + bytes.length ≤ other →
    memory'.byteAt (spot phys other) = memory.byteAt (spot phys other)
  outside : ∀ frame i, (∀ j < userStackPages, frame ≠ phys j) → memory'.words frame i = memory.words frame i

theorem Stores.nil (memory : PageMemory) (offset : Nat) : Stores phys memory offset [] memory := by
  constructor
  · intro k short
    exact absurd short (Nat.not_lt_zero k)
  · intros
    rfl
  · intros
    rfl

theorem Stores.append (first : Stores phys memory offset bytes between)
    (snd : Stores phys between (offset + bytes.length) more memory')
    (room : offset + bytes.length + more.length ≤ stackSize) : Stores phys memory offset (bytes ++ more) memory' := by
  constructor
  · intro k short
    by_cases early : k < bytes.length
    · rw [snd.around _ (by omega) (.inl (by omega)), first.inside k early, getElem_append_left early]
    · have late := snd.inside (k - bytes.length) (by rw [length_append] at short; omega)
      rw [show offset + bytes.length + (k - bytes.length) = offset + k by omega] at late
      rw [late, getElem_append_right (by omega)]
  · intro other lt away
    rw [length_append] at away
    rw [snd.around other lt (by omega), first.around other lt (by omega)]
  · intro frame i away
    rw [snd.outside frame i away, first.outside frame i away]

theorem frameOf_spot (frames : StackFrames phys) (lt : offset < stackSize) :
    frameOf (spot phys offset) = phys (offset / pageSize) := by
  have index : offset / pageSize < userStackPages := Nat.div_lt_of_lt_mul (by rw [Nat.mul_comm]; exact lt)
  have hal := frames.aligned _ index
  unfold frameOf spot
  simp only [pageSize] at hal ⊢
  omega

theorem spot_injective (frames : StackFrames phys) {other : Nat} (lt : offset < stackSize) (otherSmall : other < stackSize)
    (eq : spot phys offset = spot phys other) : offset = other := by
  have index : ∀ {place}, place < stackSize → place / pageSize < userStackPages := fun lt =>
    Nat.div_lt_of_lt_mul (by rw [Nat.mul_comm]; exact lt)
  have samePage := frames.distinct _ (index lt) _ (index otherSmall)
    (by rw [← frameOf_spot frames lt, ← frameOf_spot frames otherSmall, eq])
  unfold spot at eq
  rw [samePage] at eq
  simp only [pageSize] at eq samePage
  omega

theorem Stores.page (frames : StackFrames phys) (within : offset % pageSize + bytes.length ≤ pageSize)
    (room : offset + bytes.length ≤ stackSize) :
    Stores phys memory offset bytes (memory.writeBytes (spot phys offset) bytes) := by
  have next : ∀ k < bytes.length, spot phys (offset + k) = spot phys offset + k := by
    intro k short
    have samePage : (offset + k) / pageSize = offset / pageSize := by
      simp only [pageSize] at within ⊢
      omega
    have later : (offset + k) % pageSize = offset % pageSize + k := by
      simp only [pageSize] at within ⊢
      omega
    rw [spot, spot, samePage, later, Nat.add_assoc]
  constructor
  · intro k short
    rw [next k short, byteAt_writeBytes short]
  · intro other lt away
    apply byteAt_writeBytes_outside
    by_contra hin
    have eq : spot phys other = spot phys (offset + (spot phys other - spot phys offset)) := by
      rw [next _ (by omega)]
      omega
    have := spot_injective frames lt (by omega) eq
    omega
  · intro frame i away
    apply writeBytes_words
    intro k short
    rw [← next k short, frameOf_spot frames (by omega)]
    exact away _ (Nat.div_lt_of_lt_mul (by rw [Nat.mul_comm]; exact Nat.lt_of_lt_of_le (by omega) room))

end

section

variable {phys : Nat → Nat} {stack : ExecStack}

theorem copyChunks_cur (rounds offset : Nat) (src : List UInt8) (stack : ExecStack) :
    (copyChunks phys rounds offset src stack).cur = stack.cur := by
  induction rounds generalizing offset src stack with
  | zero => rfl
  | succ rounds ih =>
    rw [copyChunks]
    split
    · rfl
    · rw [ih]

theorem copyChunks_writes (rounds offset : Nat) (src : List UInt8) (stack : ExecStack) :
    stack.writes ⊆ (copyChunks phys rounds offset src stack).writes := by
  induction rounds generalizing offset src stack with
  | zero => exact List.Subset.refl _
  | succ rounds ih =>
    rw [copyChunks]
    split
    · exact List.Subset.refl _
    · grind

theorem copyChunks_stores (frames : StackFrames phys) {rounds offset : Nat} {src : List UInt8} (enough : src.length ≤ rounds)
    (room : offset + src.length ≤ stackSize) (above : stackBase ≤ stack.cur) :
    Stores phys stack.memory offset src (copyChunks phys rounds offset src stack).memory ∧
      ∀ write ∈ (copyChunks phys rounds offset src stack).writes, write ∈ stack.writes ∨ write.InBounds := by
  induction rounds generalizing offset src stack with
  | zero =>
    cases eq_nil_of_length_eq_zero (Nat.le_zero.mp enough)
    exact ⟨.nil _ _, fun write mem => .inl mem⟩
  | succ rounds ih =>
    rw [copyChunks]
    split
    next empty =>
      cases eq_nil_of_length_eq_zero empty
      exact ⟨.nil _ _, fun write mem => .inl mem⟩
    next filled =>
      have chunk : ∀ size, size = (if src.length < 0x1000 - offset % 0x1000 then src.length else 0x1000 - offset % 0x1000) →
          0 < size ∧ size ≤ src.length ∧ offset % pageSize + size ≤ pageSize := by
        rintro size rfl
        simp only [pageSize]
        split <;> omega
      simp only
      generalize sized : (if src.length < 0x1000 - offset % 0x1000 then src.length else 0x1000 - offset % 0x1000) = size
      obtain ⟨some_, lt, within⟩ := chunk size sized.symm
      have bound : stackSize < 2 ^ 64 := by decide
      have length : (src.take size).length = size := length_take_of_le lt
      have first : Stores phys stack.memory offset (src.take size) _ :=
        .page frames (by rw [length]; exact within) (by rw [length]; omega)
      have index : offset / 0x1000 < userStackPages := Nat.div_lt_of_lt_mul (by
        have : stackSize = 0x1000 * userStackPages := by decide
        omega)
      rw [add64_eq (by omega)]
      obtain ⟨snd, writes⟩ := @ih
        { stack with
          memory := stack.memory.writeBytes (phys (offset / 0x1000) + offset % 0x1000) (src.take size)
          writes := stack.writes ++ [⟨stack.cur, offset / 0x1000⟩] }
        (offset + size) (src.drop size) (by rw [length_drop]; omega) (by rw [length_drop]; omega) above
      constructor
      · rw [← take_append_drop size src]
        exact first.append (by rw [length, take_append_drop]; exact snd) (by rw [length, length_drop]; omega)
      · intro write mem
        rcases writes write mem with old | good
        · rcases mem_append.mp old with earlier | new
          · exact .inl earlier
          · rw [mem_singleton.mp new]
            exact .inr ⟨above, index⟩
        · exact .inr good

/-- A sequence of pushes for which there was room. -/
structure Pushes (phys : Nat → Nat) (stack : ExecStack) (objects : List (List UInt8)) (stack' : ExecStack) : Prop where
  cur : stack'.cur = lowest 8 stack.cur objects
  held : ∀ place object, (place, object) ∈ placed 8 stack.cur objects →
    ∀ k (short : k < object.length), stack'.memory.byteAt (spot phys (place - stackBase + k)) = object[k]
  kept : ∀ offset < stackSize, stack.cur ≤ stackBase + offset →
    stack'.memory.byteAt (spot phys offset) = stack.memory.byteAt (spot phys offset)
  outside : ∀ frame i, (∀ j < userStackPages, frame ≠ phys j) → stack'.memory.words frame i = stack.memory.words frame i
  writes : ∀ write ∈ stack'.writes, write ∈ stack.writes ∨ write.InBounds

/-- The cursor stays a multiple of eight inside the stack. -/
structure ExecStack.Ready (stack : ExecStack) : Prop where
  aligned : 8 ∣ stack.cur
  above : stackBase ≤ stack.cur
  top : stack.cur ≤ userStackTop

theorem Pushes.nil (stack : ExecStack) : Pushes phys stack [] stack := by
  constructor
  · rfl
  · intro place object mem
    exact nomatch mem
  · intros
    rfl
  · intros
    rfl
  · intro write mem
    exact .inl mem

theorem Pushes.ready {objects : List (List UInt8)} {stack' : ExecStack} (pushes : Pushes phys stack objects stack')
    (ready : stack.Ready) (room : stackBase ≤ lowest 8 stack.cur objects) : stack'.Ready := by
  constructor
  · rw [pushes.cur]
    exact lowest_dvd ready.aligned objects
  · rw [pushes.cur]
    exact room
  · rw [pushes.cur]
    exact (lowest_le _ _).trans ready.top

theorem Pushes.append {objects more : List (List UInt8)} {between stack' : ExecStack} (ready : stack.Ready)
    (first : Pushes phys stack objects between) (snd : Pushes phys between more stack')
    (room : stackBase ≤ lowest 8 stack.cur (objects ++ more)) : Pushes phys stack (objects ++ more) stack' := by
  have base : 0 < stackBase := by decide
  have size : stackBase + stackSize = userStackTop := by decide
  have lower := @lowest_le _ 8 (lowest 8 stack.cur objects) more
  rw [lowest_append] at room
  have top := ready.top
  constructor
  · rw [snd.cur, first.cur, lowest_append]
  · intro place object mem k short
    rw [placed_append, ← first.cur] at mem
    rcases mem_append.mp mem with early | late
    · have within := placed_within (by omega) early
      rw [snd.kept _ (by omega) (by rw [first.cur]; omega)]
      exact first.held place object early k short
    · exact snd.held place object late k short
  · intro offset lt above
    have inner := @lowest_le _ 8 stack.cur objects
    rw [snd.kept offset lt (by rw [first.cur]; omega), first.kept offset lt above]
  · intro frame i away
    rw [snd.outside frame i away, first.outside frame i away]
  · intro write mem
    rcases snd.writes write mem with old | good
    · exact first.writes write old
    · exact .inr good

theorem align8_eq {cur len : Nat} (lt : cur < 2 ^ 64) (fits : len ≤ cur) : align8 (sub64 cur len) = lowered 8 cur len := by
  rw [sub64_eq fits lt, align8]
  exact clearLow_eq 3 (by omega)

theorem pushes_of_stores {object : List UInt8} {stack' : ExecStack}
    (room : stackBase ≤ lowered 8 stack.cur object.length)
    (cur : stack'.cur = lowered 8 stack.cur object.length)
    (stores : Stores phys stack.memory (stack'.cur - stackBase) object stack'.memory)
    (writes : ∀ write ∈ stack'.writes, write ∈ stack.writes ∨ write.InBounds) : Pushes phys stack [object] stack' := by
  have lower := lowered_le 8 stack.cur object.length
  have base : 0 < stackBase := by decide
  constructor
  · exact cur
  · intro place object' mem k short
    cases mem_singleton.mp mem
    rw [← cur]
    exact stores.inside k short
  · intro offset lt above
    exact stores.around offset lt (.inr (by omega))
  · exact stores.outside
  · exact writes

theorem pushBytes_pushes (frames : StackFrames phys) (ready : stack.Ready) {object : List UInt8}
    (room : stackBase ≤ lowered 8 stack.cur object.length) :
    Pushes phys stack [object] (pushBytes phys object stack).2 ∧
      (pushBytes phys object stack).1 = lowered 8 stack.cur object.length := by
  have lower := lowered_le 8 stack.cur object.length
  have base : 0 < stackBase := by decide
  have top : userStackTop < 2 ^ 64 := by decide
  have size : stackBase + stackSize = userStackTop := by decide
  have high := ready.top
  have cur := @align8_eq stack.cur object.length (by omega) (by omega)
  have offset : sub64 (lowered 8 stack.cur object.length) stackBase = lowered 8 stack.cur object.length - stackBase :=
    sub64_eq room (by omega)
  unfold pushBytes
  simp only [cur, offset]
  obtain ⟨stores, writes⟩ := @copyChunks_stores phys { stack with cur := lowered 8 stack.cur object.length } frames
    object.length (lowered 8 stack.cur object.length - stackBase) object (Nat.le_refl _) (by omega) room
  refine ⟨pushes_of_stores room (copyChunks_cur ..) ?_ writes, trivial⟩
  rw [copyChunks_cur]
  exact stores

theorem pushWord_pushes (frames : StackFrames phys) (ready : stack.Ready) {value : Nat}
    (room : stackBase ≤ lowered 8 stack.cur 8) : Pushes phys stack [wordBytes value] (pushWord phys value stack) := by
  have length := length_wordBytes value
  have lower := lowered_le 8 stack.cur 8
  have base : 0 < stackBase := by decide
  have top : userStackTop < 2 ^ 64 := by decide
  have size : stackBase + stackSize = userStackTop := by decide
  have whole : stackSize = 0x1000 * userStackPages := by decide
  have high := ready.top
  have cur := @align8_eq stack.cur 8 (by omega) (by omega)
  have offset : sub64 (lowered 8 stack.cur 8) stackBase = lowered 8 stack.cur 8 - stackBase := sub64_eq room (by omega)
  unfold pushWord
  simp only [cur, offset]
  apply pushes_of_stores
  · rw [length]
    exact room
  · rw [length]
  · apply Stores.page frames
    · -- a multiple of eight leaves room for eight bytes in its page
      obtain ⟨count, place⟩ := lowered_dvd 8 stack.cur 8
      have multiple : stackBase = 8 * (stackBase / 8) := by decide
      rw [length]
      simp only [pageSize]
      omega
    · rw [length]
      dsimp only
      omega
  · intro write mem
    rcases mem_append.mp mem with old | new
    · exact .inl old
    · rw [mem_singleton.mp new]
      exact .inr ⟨room, Nat.div_lt_of_lt_mul (by omega)⟩

theorem pushWord_writes (value : Nat) (stack : ExecStack) : stack.writes ⊆ (pushWord phys value stack).writes :=
  subset_append_left ..

theorem pushBytes_writes (object : List UInt8) (stack : ExecStack) :
    stack.writes ⊆ (pushBytes phys object stack).2.writes := by
  intro write mem
  apply copyChunks_writes
  exact mem

theorem copyChunks_first {rounds offset : Nat} {src : List UInt8} (some_ : 0 < rounds) (filled : src ≠ []) :
    ⟨stack.cur, offset / 0x1000⟩ ∈ (copyChunks phys rounds offset src stack).writes := by
  obtain ⟨rounds, rfl⟩ := Nat.exists_eq_succ_of_ne_zero (Nat.ne_of_gt some_)
  rw [copyChunks, if_neg (by simpa using filled)]
  apply copyChunks_writes
  exact mem_append_right _ (.head _)

theorem pushBytes_outside (ready : stack.Ready) {object : List UInt8} (filled : object ≠ []) (short : object.length < 2 ^ 32)
    (noRoom : lowered 8 stack.cur object.length < stackBase) :
    ∃ write ∈ (pushBytes phys object stack).2.writes, ¬write.InBounds := by
  have top : userStackTop < 2 ^ 64 := by decide
  have base : 2 ^ 32 < stackBase := by decide
  have low := ready.above
  have high := ready.top
  have cur := @align8_eq stack.cur object.length (by omega) (by omega)
  unfold pushBytes
  simp only [cur]
  refine ⟨_, copyChunks_first (length_pos_iff.mpr filled) filled, fun hin => ?_⟩
  exact Nat.not_lt.mpr hin.1 noRoom

theorem pushWord_outside (ready : stack.Ready) {value : Nat} (noRoom : lowered 8 stack.cur 8 < stackBase) :
    ∃ write ∈ (pushWord phys value stack).writes, ¬write.InBounds := by
  have top : userStackTop < 2 ^ 64 := by decide
  have base : 2 ^ 32 < stackBase := by decide
  have low := ready.above
  have high := ready.top
  have cur := @align8_eq stack.cur 8 (by omega) (by omega)
  unfold pushWord
  simp only [cur]
  refine ⟨_, mem_append_right _ (.head _), fun hin => ?_⟩
  exact Nat.not_lt.mpr hin.1 noRoom

end

end RosKernel.Process
