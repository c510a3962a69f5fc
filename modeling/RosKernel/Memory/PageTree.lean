import RosKernel.Library.Radix
import RosKernel.Memory.Paging

/-! What the page tables of a set of address spaces look like in memory.

An address space is named by its top-level table, and paths lead from there through its
user half. No frame is reached along two paths, except the pages that are shared on
purpose; so an entry can be written, and a table given back, without disturbing what
other paths lead to.
-/

set_option autoImplicit false

namespace RosKernel.Memory

open Library List

section

theorem and_bitRange (value low width : Nat) :
    value &&& (2 ^ width - 1) * 2 ^ low = value / 2 ^ low % 2 ^ width * 2 ^ low := by
  apply Nat.eq_of_testBit_eq
  intro i
  simp only [Nat.testBit_and, Nat.testBit_mul_two_pow, Nat.testBit_two_pow_sub_one, Nat.testBit_mod_two_pow,
    Nat.testBit_div_two_pow]
  by_cases above : low ≤ i
  · simp [above, Bool.and_comm]
  · simp [above]

theorem entryAddr_eq (entry : Nat) : entryAddr entry = entry / 4096 % 2 ^ 40 * 4096 := and_bitRange entry 12 40

/-- The address of a page: aligned and inside the range that an entry can hold. -/
structure Mappable (addr : Nat) : Prop where
  aligned : addr % pageSize = 0
  small : addr < 2 ^ 52

theorem entryAddr_of_mappable {addr : Nat} (mappable : Mappable addr) : entryAddr addr = addr := by
  obtain ⟨hal, lt⟩ := mappable
  rw [entryAddr_eq]
  simp only [pageSize] at hal
  omega

theorem entryAddr_or (addr flags : Nat) : entryAddr (addr ||| flags) = entryAddr addr ||| entryAddr flags :=
  Nat.and_or_distrib_right ..

theorem entryAddr_flags {addr flags : Nat} (mappable : Mappable addr) (low : entryAddr flags = 0) :
    entryAddr (addr ||| flags) = addr := by
  rw [entryAddr_or, low, Nat.or_zero, entryAddr_of_mappable mappable]

theorem and_low_of_aligned {addr mask : Nat} (hal : addr % pageSize = 0) (low : mask < 4096) : addr &&& mask = 0 := by
  have zero : addr % 2 ^ 12 = 0 := hal
  apply Nat.eq_of_testBit_eq
  intro i
  rw [Nat.testBit_and, Nat.zero_testBit]
  by_cases hin : i < 12
  · have bit : (addr % 2 ^ 12).testBit i = addr.testBit i := by
      rw [Nat.testBit_mod_two_pow]
      simp [hin]
    rw [← bit, zero, Nat.zero_testBit, Bool.false_and]
  · rw [Nat.testBit_lt_two_pow (Nat.lt_of_lt_of_le low (Nat.pow_le_pow_right (n := 2) (by decide) (Nat.le_of_not_lt hin))),
      Bool.and_false]

theorem present_flags {addr flags : Nat} (hal : addr % pageSize = 0) : present (addr ||| flags) = present flags := by
  unfold present
  rw [Nat.and_or_distrib_right, and_low_of_aligned hal (by decide), Nat.zero_or]

theorem huge_flags {addr flags : Nat} (hal : addr % pageSize = 0) : huge (addr ||| flags) = huge flags := by
  unfold huge
  rw [Nat.and_or_distrib_right, and_low_of_aligned hal (by decide), Nat.zero_or]

theorem writable_entry (entry : Nat) : entryAddr (entry ||| pageRW) = entryAddr entry ∧
    present (entry ||| pageRW) = present entry ∧ huge (entry ||| pageRW) = huge entry := by
  refine ⟨?_, ?_, ?_⟩
  · rw [entryAddr_or, show entryAddr pageRW = 0 by decide, Nat.or_zero]
  · simp only [present, Nat.and_or_distrib_right, show pageRW &&& pagePresent = 0 by decide, Nat.or_zero]
  · simp only [huge, Nat.and_or_distrib_right, show pageRW &&& pagePS = 0 by decide, Nat.or_zero]

/-- The entry that `MapPages` writes for a new table. -/
def tableEntry (frame : Nat) : Nat := frame ||| pagePresent ||| pageRW ||| pageUser

theorem tableEntry_spec {frame : Nat} (mappable : Mappable frame) : entryAddr (tableEntry frame) = frame ∧
    present (tableEntry frame) = true ∧ huge (tableEntry frame) = false := by
  unfold tableEntry
  rw [Nat.or_assoc, Nat.or_assoc]
  refine ⟨entryAddr_flags mappable (by decide), ?_, ?_⟩
  · rw [present_flags mappable.aligned]
    decide
  · rw [huge_flags mappable.aligned]
    decide

end

section

variable {memory : PageMemory}

/-- The frame at `addr` is managed by the allocator. -/
def Managed (addr : Nat) : Prop := ∃ k, k < physFrames ∧ addr = physBase + k * pageSize

def PageMemory.InUse (memory : PageMemory) (addr : Nat) : Prop :=
  ∃ k, k < physFrames ∧ addr = physBase + k * pageSize ∧ memory.frames.used k = true

theorem Managed.mappable {addr : Nat} (managed : Managed addr) : Mappable addr := by
  obtain ⟨k, bound, rfl⟩ := managed
  simp only [physFrames] at bound
  constructor <;> simp only [physBase, pageSize] <;> omega

theorem Managed.pos {addr : Nat} (managed : Managed addr) : addr ≠ 0 := by
  obtain ⟨k, _, rfl⟩ := managed
  simp only [physBase]
  omega

theorem PageMemory.InUse.managed {addr : Nat} (used : memory.InUse addr) : Managed addr := by
  obtain ⟨k, bound, eq, _⟩ := used
  exact ⟨k, bound, eq⟩

theorem allocPage_cases (memory : PageMemory) :
    memory.allocPage = (0, memory) ∨
    ∃ frame frames, memory.allocPage = (frame, { memory with frames := frames }) ∧ Managed frame ∧
      ¬ memory.InUse frame ∧
      ∀ addr, PageMemory.InUse { memory with frames := frames } addr ↔ memory.InUse addr ∨ addr = frame := by
  unfold PageMemory.allocPage
  rcases physicalAllocPages_cases memory.frames 1 with ⟨refused, _⟩ | ⟨start, _, ⟨bound, free⟩, _, served⟩
  · left
    rw [refused]
  · right
    rw [served]
    refine ⟨_, _, rfl, ⟨start, bound, rfl⟩, ?_, fun addr => ?_⟩
    · rintro ⟨k, _, eq, used⟩
      have : k = start := by
        simp only [pageSize] at eq
        omega
      rw [this, free start (Nat.le_refl _) (by omega)] at used
      cases used
    · simp only [PageMemory.InUse, used_setRange, Bool.or_eq_true, decide_eq_true_eq]
      constructor
      · rintro ⟨k, hin, rfl, h | used⟩
        · exact .inr (by rw [show k = start by omega])
        · exact .inl ⟨k, hin, rfl, used⟩
      · rintro (⟨k, hin, rfl, used⟩ | rfl)
        · exact ⟨k, hin, rfl, .inr used⟩
        · exact ⟨start, bound, rfl, .inl (by omega)⟩

theorem free_inUse {frame : Nat} (managed : Managed frame) (addr : Nat) :
    (memory.free frame).InUse addr ↔ memory.InUse addr ∧ addr ≠ frame := by
  obtain ⟨start, bound, rfl⟩ := managed
  have inside_ : start + 1 ≤ physFrames := bound
  simp only [PageMemory.InUse, PageMemory.free, used_physicalFreePages inside_, Bool.and_eq_true,
    Bool.not_eq_true', decide_eq_false_iff_not]
  constructor
  · rintro ⟨k, hin, rfl, out, used⟩
    refine ⟨⟨k, hin, rfl, used⟩, fun eq => out ?_⟩
    simp only [pageSize] at eq
    omega
  · grind

end

section

def entryFrame (entry : Nat) : Option Nat := if present entry then some (entryAddr entry) else none

theorem entryFrame_absent {entry : Nat} (absent : present entry = false) : entryFrame entry = none := by
  simp only [entryFrame, absent, Bool.false_eq_true, if_false]

theorem entryFrame_present {entry : Nat} (h : present entry = true) : entryFrame entry = some (entryAddr entry) :=
  if_pos h

/-- The frame at the end of a path. -/
def PageMemory.walk (memory : PageMemory) (root : Nat) (path : List Nat) : Option Nat :=
  Library.walk entryFrame memory.words root path

theorem PageMemory.walk_nil (memory : PageMemory) (root : Nat) : memory.walk root [] = some root := rfl

theorem PageMemory.walk_cons {memory : PageMemory} {root table : Nat} {path : List Nat} (i : Nat)
    (hr : memory.walk root path = some table) :
    memory.walk root (i :: path) = entryFrame (memory.words table i) := by
  have step : memory.walk root (i :: path) =
      (memory.walk root path).bind fun table => entryFrame (memory.words table i) := rfl
  rw [step, hr, Option.bind_some]

/-- A path through the user half of an address space, not beyond its pages. -/
structure UserPath (path : List Nat) : Prop where
  depth : path.length ≤ 4
  index : ∀ i ∈ path, i < tableSize
  half : ∀ i ∈ path.getLast?, i < 256

theorem UserPath.tail {i : Nat} {path : List Nat} (user : UserPath (i :: path)) : UserPath path := by
  constructor
  · have := user.depth
    simp only [length_cons] at this
    omega
  · intro j mem
    exact user.index j (.tail _ mem)
  · intro j last
    apply user.half j
    cases path with
    | nil => exact nomatch last
    | cons k rest => rw [getLast?_cons_cons]; exact last

theorem UserPath.suffix {path longer : List Nat} (user : UserPath longer) (suffix : path <:+ longer) :
    UserPath path := by
  obtain ⟨front, rfl⟩ := suffix
  induction front with
  | nil => exact user
  | cons i front ih => exact ih user.tail

theorem UserPath.head {i : Nat} {path : List Nat} (user : UserPath (i :: path)) : i < tableSize :=
  user.index i (.head _)

theorem UserPath.short {i : Nat} {path : List Nat} (user : UserPath (i :: path)) : path.length ≤ 3 := by
  have := user.depth
  simp only [length_cons] at this
  omega

theorem UserPath.nil : UserPath [] := by
  constructor
  · decide
  · intro i mem
    exact nomatch mem
  · intro i last
    exact nomatch last

def pathOf (virtAddr : Nat) : List Nat :=
  [tableIndex 0 virtAddr, tableIndex 1 virtAddr, tableIndex 2 virtAddr, tableIndex 3 virtAddr]

theorem tableIndex_eq (level virtAddr : Nat) :
    tableIndex level virtAddr = virtAddr / 2 ^ (12 + 9 * level) % 2 ^ 9 := by
  unfold tableIndex
  rw [Nat.shiftRight_eq_div_pow, show 0x1FF = 2 ^ 9 - 1 by decide, Nat.and_two_pow_sub_one_eq_mod]

theorem tableIndex_lt (level virtAddr : Nat) : tableIndex level virtAddr < tableSize := by
  rw [tableIndex_eq]
  exact Nat.mod_lt _ (by decide)

theorem userPath_pathOf {virtAddr : Nat} (lt : virtAddr < 2 ^ 47) : UserPath (pathOf virtAddr) := by
  constructor
  · exact Nat.le_refl 4
  · intro i mem
    simp only [pathOf, mem_cons, not_mem_nil, or_false] at mem
    rcases mem with rfl | rfl | rfl | rfl <;> exact tableIndex_lt _ _
  · intro i last
    simp only [pathOf, getLast?_cons_cons, getLast?_singleton, Option.mem_some_iff] at last
    rw [← last, tableIndex_eq]
    omega

theorem pathOf_inj {one other : Nat} (oneSmall : one < 2 ^ 47) (otherSmall : other < 2 ^ 47)
    (oneAligned : one % pageSize = 0) (otherAligned : other % pageSize = 0) (eq : pathOf one = pathOf other) :
    one = other := by
  simp only [pathOf, tableIndex_eq, List.cons.injEq, and_true] at eq
  simp only [pageSize] at oneAligned otherAligned
  omega

end

section

variable {memory memory' : PageMemory} {roots shared : Nat → Prop} {root table i : Nat} {path : List Nat}

structure PageTree (memory : PageMemory) (roots shared : Nat → Prop) : Prop where
  used : ∀ root path frame, roots root → UserPath path → memory.walk root path = some frame →
    (memory.InUse frame ∧ ¬ shared frame) ∨ path.length = 4 ∧ shared frame
  once : ∀ root path root' path' frame, roots root → UserPath path → roots root' → UserPath path' →
    memory.walk root path = some frame → memory.walk root' path' = some frame → ¬ shared frame →
    root' = root ∧ path' = path
  plain : ∀ root path table i, roots root → UserPath (i :: path) → path.length ≤ 2 →
    memory.walk root path = some table → present (memory.words table i) = true → huge (memory.words table i) = false
  held : ∀ frame, shared frame → Managed frame → memory.InUse frame

/-- A frame in use that is not one of the tables. -/
def PageMemory.Data (memory : PageMemory) (roots : Nat → Prop) (frame : Nat) : Prop :=
  memory.InUse frame ∧
    ∀ root path, roots root → UserPath path → path.length ≤ 3 → memory.walk root path ≠ some frame

/-- What tables are made of changes, and nothing that they map. -/
structure SameLeaves (roots : Nat → Prop) (memory memory' : PageMemory) : Prop where
  leaves : ∀ root path, roots root → UserPath path → path.length = 4 →
    memory'.walk root path = memory.walk root path
  data : ∀ frame, memory'.Data roots frame ↔ memory.Data roots frame

theorem SameLeaves.refl : SameLeaves roots memory memory := by
  constructor
  · intros
    rfl
  · intro frame
    exact .rfl

theorem SameLeaves.trans {memory'' : PageMemory} (first : SameLeaves roots memory memory')
    (snd : SameLeaves roots memory' memory'') : SameLeaves roots memory memory'' := by
  constructor
  · intro root path isRoot user leaf
    rw [snd.leaves root path isRoot user leaf, first.leaves root path isRoot user leaf]
  · intro frame
    rw [snd.data, first.data]

theorem SameLeaves.symm (eq : SameLeaves roots memory memory') : SameLeaves roots memory' memory := by
  constructor
  · intro root path isRoot user leaf
    exact (eq.leaves root path isRoot user leaf).symm
  · intro frame
    exact (eq.data frame).symm

theorem sameLeaves_of_table {frame : Nat} (isRoot : roots root) (user : UserPath (i :: path))
    (inner : path.length ≤ 2)
    (walks : ∀ root' path', roots root' → UserPath path' → memory'.walk root' path' =
      if root' = root ∧ path' = i :: path then some frame else memory.walk root' path')
    (pre : memory.walk root (i :: path) = none) (fresh : ¬ memory.InUse frame)
    (inUse : ∀ addr, memory'.InUse addr ↔ memory.InUse addr ∨ addr = frame) : SameLeaves roots memory memory' := by
  constructor
  · intro root' path' isRoot' user' leaf
    rw [walks root' path' isRoot' user', if_neg]
    rintro ⟨_, rfl⟩
    simp only [length_cons] at leaf
    omega
  · intro frame'
    constructor
    · intro ⟨used, notTable⟩
      have ofWalk : memory'.walk root (i :: path) = some frame := by rw [walks _ _ isRoot user, if_pos ⟨rfl, rfl⟩]
      constructor
      · cases (inUse frame').mp used with
        | inl old => exact old
        | inr new =>
          subst new
          exact absurd ofWalk (notTable root (i :: path) isRoot user (Nat.succ_le_succ inner))
      · intro root' path' isRoot' user' short hr'
        apply notTable root' path' isRoot' user' short
        rw [walks _ _ isRoot' user', if_neg]
        · exact hr'
        · grind
    · intro ⟨used, notTable⟩
      constructor
      · exact (inUse frame').mpr (.inl used)
      · intro root' path' isRoot' user' short hr'
        rw [walks _ _ isRoot' user'] at hr'
        split at hr'
        · cases hr'
          exact fresh used
        · exact notTable root' path' isRoot' user' short hr'

section

variable (tree : PageTree memory roots shared)
include tree

theorem PageTree.own (isRoot : roots root) (user : UserPath path) (short : path.length ≤ 3)
    (hr : memory.walk root path = some table) : memory.InUse table ∧ ¬ shared table := by
  cases tree.used root path table isRoot user hr with
  | inl alone => exact alone
  | inr leaf => omega

theorem PageTree.walk_write (memory' : PageMemory) (isRoot : roots root) (user : UserPath (i :: path))
    (hr : memory.walk root path = some table)
    (eq : ∀ root' path' table' j, roots root' → UserPath (j :: path') → memory.walk root' path' = some table' → ¬ (table' = table ∧ j = i) → memory'.words table' j = memory.words table' j)
    (barren : ∀ child, entryFrame (memory.words table i) = some child → path.length ≤ 2 → ∀ j, j < tableSize → present (memory.words child j) = false)
    (barren' : ∀ child, entryFrame (memory'.words table i) = some child → path.length ≤ 2 → ∀ j, j < tableSize → present (memory'.words child j) = false)
    (root' : Nat) (path' : List Nat) (isRoot' : roots root') (user' : UserPath path') : memory'.walk root' path' =
      if root' = root ∧ path' = i :: path then entryFrame (memory'.words table i) else memory.walk root' path' := by
  have notShared := (tree.own isRoot user.tail user.short hr).2
  have inner : ∀ j, UserPath (j :: i :: path) → path.length ≤ 2 := by
    intro j longer
    have := longer.depth
    simp only [length_cons] at this
    omega
  have closed : Closed fun root path => roots root ∧ UserPath path := by
    intro root i path hin
    exact ⟨hin.1, hin.2.tail⟩
  apply walk_set closed hr
  · intro root' path' hin again
    exact tree.once root path root' path' table isRoot user.tail hin.1 hin.2 hr again notShared
  · intro root' path' table' j hin h other
    rw [eq root' path' table' j hin.1 hin.2 h other]
  · intro child h j hin
    exact entryFrame_absent (barren child h (inner j hin.2) j hin.2.head)
  · intro child h j hin
    exact entryFrame_absent (barren' child h (inner j hin.2) j hin.2.head)
  · exact ⟨isRoot', user'⟩

theorem PageTree.replace {target : List Nat} {hf : Option Nat}
    (walks : ∀ root' path', roots root' → UserPath path' → memory'.walk root' path' = if root' = root ∧ path' = target then hf else memory.walk root' path')
    (kept : ∀ root' path' frame, roots root' → UserPath path' → ¬ (root' = root ∧ path' = target) → memory.walk root' path' = some frame → ¬ shared frame → memory.InUse frame → memory'.InUse frame)
    (new : ∀ frame, hf = some frame → (memory'.InUse frame ∧ ¬ shared frame ∧ ∀ root' path', roots root' → UserPath path' → memory.walk root' path' = some frame → root' = root ∧ path' = target) ∨ target.length = 4 ∧ shared frame)
    (plain : ∀ root' path' table j, roots root' → UserPath (j :: path') → path'.length ≤ 2 → memory'.walk root' path' = some table → present (memory'.words table j) = true → huge (memory'.words table j) = false)
    (held : ∀ frame, shared frame → Managed frame → memory'.InUse frame) : PageTree memory' roots shared := by
  constructor
  · intro root' path' frame isRoot' user' hr
    rw [walks root' path' isRoot' user'] at hr
    split at hr
    next h =>
      obtain ⟨rfl, rfl⟩ := h
      cases new frame hr with
      | inl alone => exact .inl ⟨alone.1, alone.2.1⟩
      | inr leaf => exact .inr leaf
    next other =>
      cases tree.used root' path' frame isRoot' user' hr with
      | inl alone => exact .inl ⟨kept root' path' frame isRoot' user' other hr alone.2 alone.1, alone.2⟩
      | inr leaf => exact .inr leaf
  · -- A frame hr twice is hr twice pre, or once through the new entry.
    intro one onePath other otherPath frame oneRoot oneUser otherRoot otherUser oneReached otherReached notShared
    have only : ∀ root' path', roots root' → UserPath path' → hf = some frame →
        memory.walk root' path' = some frame → root' = root ∧ path' = target := by
      intro root' path' isRoot' user' isNew hr
      cases new frame isNew with
      | inl alone => exact alone.2.2 root' path' isRoot' user' hr
      | inr leaf => exact absurd leaf.2 notShared
    rw [walks _ _ oneRoot oneUser] at oneReached
    rw [walks _ _ otherRoot otherUser] at otherReached
    split at oneReached
    next oneHere =>
      split at otherReached
      next otherHere => rw [oneHere.1, oneHere.2, otherHere.1, otherHere.2]; exact ⟨rfl, rfl⟩
      next away => exact absurd (only other otherPath otherRoot otherUser oneReached otherReached) away
    next away =>
      split at otherReached
      next otherHere => exact absurd (only one onePath oneRoot oneUser otherReached oneReached) away
      next =>
        exact tree.once one onePath other otherPath frame oneRoot oneUser otherRoot otherUser oneReached
          otherReached notShared
  · exact plain
  · exact held

end

theorem walk_empty (empty : ∀ i, i < 256 → present (memory.words root i) = false) {path : List Nat} (user : UserPath path)
    (nonempty : path ≠ []) : memory.walk root path = none := by
  induction path with
  | nil => exact absurd rfl nonempty
  | cons i rest ih =>
    cases rest with
    | nil =>
      rw [PageMemory.walk_cons i (PageMemory.walk_nil memory root)]
      exact entryFrame_absent (empty i (user.half i rfl))
    | cons j rest =>
      have step : memory.walk root (i :: j :: rest) =
          (memory.walk root (j :: rest)).bind fun table => entryFrame (memory.words table i) := rfl
      rw [step, ih user.tail (cons_ne_nil j rest), Option.bind_none]

theorem pageTree_empty (used : memory.InUse root) (notShared : ¬ shared root)
    (empty : ∀ i, i < 256 → present (memory.words root i) = false)
    (held : ∀ frame, shared frame → Managed frame → memory.InUse frame) : PageTree memory (· = root) shared := by
  have only : ∀ path frame, UserPath path → memory.walk root path = some frame → path = [] ∧ frame = root := by
    intro path frame user hr
    by_cases top : path = []
    · subst top
      exact ⟨rfl, (Option.some.inj hr).symm⟩
    · rw [walk_empty empty user top] at hr
      exact nomatch hr
  refine ⟨?_, ?_, ?_, held⟩
  · grind
  · grind
  · rintro _ path table i rfl user _ hr h
    obtain ⟨rfl, rfl⟩ := only path table user.tail hr
    rw [empty i (user.half i rfl)] at h
    exact nomatch h

end

end RosKernel.Memory
