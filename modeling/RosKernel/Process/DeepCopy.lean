import RosKernel.Process.Spaces

/-! A clone of an address space shares nothing with it.

Every frame that cloning takes is a table or a page of the clone. Tearing the clone down visits these frames in another
order, each of them once.
-/

set_option autoImplicit false

namespace RosKernel.Process

open Memory List
open Function (update_apply update_of_ne update_self)

/-! ## Trees of tables -/

/-- The allocator cannot hand out this frame. -/
def Held (memory : PageMemory) (frame : Nat) : Prop := Managed frame → memory.InUse frame

/-- Below this frame are tables down to pages of 4 KiB. Level 0 is a page itself. -/
def Tables (memory : PageMemory) : Nat → Nat → Prop
  | 0, page => Held memory page
  | level + 1, table => Held memory table ∧ ∀ i, i < tableSize → present (memory.words table i) = true →
      (level = 1 ∨ level = 2 → huge (memory.words table i) = false) ∧ Tables memory level (entryAddr (memory.words table i))

def UserTables (memory : PageMemory) (source : Nat) : Prop :=
  Held memory source ∧ ∀ i, i < userHalf → present (memory.words source i) = true →
    Tables memory 3 (entryAddr (memory.words source i))

/-- The frames below the first `count` entries of a table, with those of `below` for each entry. -/
def framesBelow (words : Nat → Nat → Nat) (below : Nat → List Nat) (table count : Nat) : List Nat :=
  (range count).flatMap fun i => if present (words table i) then below (entryAddr (words table i)) else []

/-- The frames of a tree, a table after what it names. -/
def treeFrames (words : Nat → Nat → Nat) : Nat → Nat → List Nat
  | 0, page => [page]
  | level + 1, table => framesBelow words (treeFrames words level) table tableSize ++ [table]

/-- The tables and pages of a user half, without the top-level table. -/
def userFrames (words : Nat → Nat → Nat) (pml4 : Nat) : List Nat := framesBelow words (treeFrames words 3) pml4 userHalf

/-- Everything that `FreeUserAddressSpace` has to give back. -/
def spaceFrames (words : Nat → Nat → Nat) (pml4 : Nat) : List Nat := userFrames words pml4 ++ [pml4]

/-- The entries that the processor reads for an address, from the top down to the first that is absent. -/
def entriesFrom (memory : PageMemory) (virtAddr : Nat) : Nat → Nat → List Nat
  | 0, table =>
    let entry := memory.words table (tableIndex 0 virtAddr)
    if present entry then [entry] else []
  | level + 1, table =>
    let entry := memory.words table (tableIndex (level + 1) virtAddr)
    if present entry then entry :: entriesFrom memory virtAddr level (entryAddr entry) else []

/-- An address is mapped if all four entries are there. -/
def entriesOf (memory : PageMemory) (pml4 virtAddr : Nat) : List Nat := entriesFrom memory virtAddr 3 pml4

/-! ## Frames taken -/

section

variable {memory memory' : PageMemory} {taken : List Nat}

/-- From `memory` to `memory'` the frames of `taken` are allocated, and nothing else is written. -/
structure Takes (memory memory' : PageMemory) (taken : List Nat) : Prop where
  nodup : taken.Nodup
  fresh : ∀ frame ∈ taken, Managed frame ∧ ¬ memory.InUse frame
  used : ∀ k, memory'.frames.used k = true ↔ memory.frames.used k = true ∨ physBase + k * pageSize ∈ taken
  low : memory'.frames.low = memory.frames.low
  words : ∀ frame, frame ∉ taken → memory'.words frame = memory.words frame
  freed : memory'.freed = memory.freed

section

variable (takes : Takes memory memory' taken)
include takes

theorem Takes.inUse (frame : Nat) : memory'.InUse frame ↔ memory.InUse frame ∨ frame ∈ taken := by
  unfold PageMemory.InUse
  simp only [takes.used]
  constructor
  · intro ⟨k, hin, eq, h⟩
    subst eq
    cases h with
    | inl pre => exact .inl ⟨k, hin, rfl, pre⟩
    | inr new => exact .inr new
  · intro h
    cases h with
    | inl pre =>
      obtain ⟨k, hin, eq, used⟩ := pre
      exact ⟨k, hin, eq, .inl used⟩
    | inr new =>
      obtain ⟨k, hin, eq⟩ := (takes.fresh frame new).1
      exact ⟨k, hin, eq, .inr (eq ▸ new)⟩

theorem Takes.held {frame : Nat} (held : Held memory frame) : frame ∉ taken ∧ Held memory' frame := by
  constructor
  · intro new
    exact (takes.fresh frame new).2 (held (takes.fresh frame new).1)
  · intro managed
    exact (takes.inUse frame).mpr (.inl (held managed))

theorem Takes.old {frame : Nat} (held : Held memory frame) :
    memory'.words frame = memory.words frame := takes.words frame (takes.held held).1

theorem Takes.new {frame : Nat} (mem : frame ∈ taken) : Held memory' frame :=
  fun _ => (takes.inUse frame).mpr (.inr mem)

end

theorem Takes.trans {memory'' : PageMemory} {more : List Nat} (first : Takes memory memory' taken)
    (snd : Takes memory' memory'' more) : Takes memory memory'' (taken ++ more) := by
  constructor
  · rw [nodup_append']
    refine ⟨first.nodup, snd.nodup, fun frame pre after => ?_⟩
    exact (snd.fresh frame after).2 ((first.inUse frame).mpr (.inr pre))
  · intro frame mem
    cases mem_append.mp mem with
    | inl pre => exact first.fresh frame pre
    | inr after =>
      have unused := (snd.fresh frame after).2
      rw [first.inUse, not_or] at unused
      exact ⟨(snd.fresh frame after).1, unused.1⟩
  · intro k
    rw [snd.used, first.used, mem_append, or_assoc]
  · rw [snd.low, first.low]
  · intro frame out
    rw [mem_append, not_or] at out
    rw [snd.words frame out.2, first.words frame out.1]
  · rw [snd.freed, first.freed]

theorem Takes.perm {order : List Nat} (takes : Takes memory memory' taken) (eq : order.Perm taken) :
    Takes memory memory' order := by
  constructor
  · exact eq.nodup_iff.mpr takes.nodup
  · exact fun frame mem => takes.fresh frame (eq.mem_iff.mp mem)
  · intro k
    rw [takes.used, eq.mem_iff]
  · exact takes.low
  · exact fun frame out => takes.words frame fun mem => out (eq.mem_iff.mpr mem)
  · exact takes.freed

theorem Takes.rewrite {words : Nat → Nat → Nat} (takes : Takes memory memory' taken)
    (eq : ∀ frame, frame ∉ taken → words frame = memory'.words frame) :
    Takes memory { memory' with words := words } taken := by
  constructor
  · exact takes.nodup
  · exact takes.fresh
  · exact takes.used
  · exact takes.low
  · exact fun frame out => (eq frame out).trans (takes.words frame out)
  · exact takes.freed

theorem takes_allocPage {new : Nat} (ran : memory.allocPage = (new, memory')) (served : new ≠ 0) :
    Takes memory memory' [new] ∧ memory'.words = memory.words := by
  unfold PageMemory.allocPage at ran
  rcases physicalAllocPages_cases memory.frames 1 with ⟨refused, _⟩ | ⟨start, _, ⟨bound, free⟩, _, alloc⟩
  · grind
  · rw [alloc] at ran
    cases ran
    have addr : ∀ k, physBase + k * pageSize = physBase + start * pageSize ↔ k = start := by
      intro k
      simp only [pageSize]
      omega
    refine ⟨⟨nodup_singleton _, ?_, ?_, rfl, fun _ _ => rfl, rfl⟩, rfl⟩
    · intro frame mem
      rw [mem_singleton.mp mem]
      refine ⟨⟨start, bound, rfl⟩, ?_⟩
      rintro ⟨k, _, eq, used⟩
      rw [(addr k).mp eq.symm, free start (Nat.le_refl _) (by omega)] at used
      cases used
    · intro k
      rw [used_setRange, mem_singleton, addr, Bool.or_eq_true, decide_eq_true_eq, or_comm]
      refine or_congr_right ?_
      omega

end

/-! ## Copies of tables -/

section

/-- The first `count` entries of one table are those of another: with the same flags, and naming copies. -/
def EntriesCopied (words words' : Nat → Nat → Nat) (below : Nat → Nat → Prop) (table copy count : Nat) : Prop :=
  ∀ i, i < count → present (words' copy i) = present (words table i) ∧
    (present (words table i) = true → flagBits (words' copy i) = flagBits (words table i) ∧
      below (entryAddr (words table i)) (entryAddr (words' copy i)))

/-- `copy` is in `words'` what `table` is in `words`. -/
def CopyOf (words words' : Nat → Nat → Nat) : Nat → Nat → Nat → Prop
  | 0, page, copy => words' copy = words page
  | level + 1, table, copy => EntriesCopied words words' (CopyOf words words' level) table copy tableSize

variable {words words' : Nat → Nat → Nat} {below below' : Nat → List Nat} {memory memory' : PageMemory}
  {taken : List Nat} {table copy level count : Nat}

theorem framesBelow_congr (eq : ∀ i, i < count → words' table i = words table i)
    (frames : ∀ i, i < count → present (words table i) = true →
      below' (entryAddr (words table i)) = below (entryAddr (words table i))) :
    framesBelow words' below' table count = framesBelow words below table count := by
  unfold framesBelow
  rw [List.flatMap, List.flatMap]
  apply congrArg List.flatten
  apply map_congr_left
  intro i mem
  rw [eq i (mem_range.mp mem)]
  by_cases h : present (words table i) = true
  · grind
  · rw [if_neg h, if_neg h]

theorem mem_framesBelow {frame i : Nat} (bound : i < count) (h : present (words table i) = true)
    (mem : frame ∈ below (entryAddr (words table i))) : frame ∈ framesBelow words below table count := by
  unfold framesBelow
  rw [mem_flatMap]
  exact ⟨i, mem_range.mpr bound, by rwa [if_pos h]⟩

theorem of_mem_framesBelow {frame : Nat} (mem : frame ∈ framesBelow words below table count) :
    ∃ i, i < count ∧ present (words table i) = true ∧ frame ∈ below (entryAddr (words table i)) := by
  obtain ⟨i, hin, mem⟩ := mem_flatMap.mp mem
  by_cases h : present (words table i) = true
  · grind
  · rw [if_neg h] at mem
    exact nomatch mem

theorem treeFrames_congr (eq : ∀ frame ∈ treeFrames words level table, words' frame = words frame) :
    treeFrames words' level table = treeFrames words level table := by
  induction level generalizing table with
  | zero => rfl
  | succ level ih =>
    unfold treeFrames at eq ⊢
    rw [framesBelow_congr]
    · grind
    · intro i bound h
      apply ih
      intro frame mem
      exact eq frame (mem_append_left _ (mem_framesBelow bound h mem))

theorem CopyOf.kept {later : Nat → Nat → Nat} (copied : CopyOf words words' level table copy)
    (eq : ∀ frame ∈ treeFrames words' level copy, later frame = words' frame) : CopyOf words later level table copy := by
  induction level generalizing table copy with
  | zero => exact (eq copy (.head _)).trans copied
  | succ level ih =>
    intro i bound
    have own := eq copy (mem_append_right _ (.head _))
    obtain ⟨mapped, rest⟩ := copied i bound
    rw [own]
    refine ⟨mapped, fun h => ⟨(rest h).1, ih (rest h).2 fun frame mem => ?_⟩⟩
    exact eq frame (mem_append_left _ (mem_framesBelow bound (mapped.trans h) mem))

theorem Tables.later (tables : Tables memory level table) (takes : Takes memory memory' taken) :
    Tables memory' level table := by
  induction level generalizing table with
  | zero => exact (takes.held tables).2
  | succ level ih =>
    obtain ⟨held, entries⟩ := tables
    refine ⟨(takes.held held).2, fun i bound h => ?_⟩
    rw [takes.old held] at h ⊢
    exact ⟨(entries i bound h).1, ih (entries i bound h).2⟩

theorem CopyOf.earlier (copied : CopyOf memory'.words words level table copy) (tables : Tables memory level table)
    (takes : Takes memory memory' taken) : CopyOf memory.words words level table copy := by
  induction level generalizing table copy with
  | zero => exact copied.trans (takes.old tables)
  | succ level ih =>
    obtain ⟨held, entries⟩ := tables
    intro i bound
    obtain ⟨mapped, rest⟩ := copied i bound
    rw [takes.old held] at mapped rest
    exact ⟨mapped, fun h => ⟨(rest h).1, ih (rest h).2 (entries i bound h).2⟩⟩

end

/-! ## Cloning -/

section

variable {memory memory' : PageMemory} {source new level i : Nat} {blank : Nat → Nat} {taken : List Nat}

theorem present_flagBits (entry : Nat) : present (flagBits entry) = present entry := by
  unfold present flagBits
  rw [Nat.and_assoc, show 0xFFF0000000000FFF &&& pagePresent = pagePresent by decide]

theorem huge_flagBits (entry : Nat) : huge (flagBits entry) = huge entry := by
  unfold huge flagBits
  rw [Nat.and_assoc, show 0xFFF0000000000FFF &&& pagePS = pagePS by decide]

theorem cloned_entry {addr : Nat} (mappable : Mappable addr) (entry : Nat) :
    entryAddr (addr ||| flagBits entry) = addr ∧ present (addr ||| flagBits entry) = present entry ∧
      flagBits (addr ||| flagBits entry) = flagBits entry := by
  refine ⟨entryAddr_flags mappable ?_, ?_, ?_⟩
  · unfold entryAddr flagBits
    rw [Nat.and_assoc, show 0xFFF0000000000FFF &&& pageAddrMask = 0 by decide, Nat.and_zero]
  · rw [present_flags mappable.aligned, present_flagBits]
  · have none : flagBits addr = 0 := by
      rw [← entryAddr_of_mappable mappable]
      unfold entryAddr flagBits
      rw [Nat.and_assoc, show pageAddrMask &&& 0xFFF0000000000FFF = 0 by decide, Nat.and_zero]
    have again : flagBits (flagBits entry) = flagBits entry := by
      unfold flagBits
      rw [Nat.and_assoc, Nat.and_self]
    have both : flagBits (addr ||| flagBits entry) = flagBits addr ||| flagBits (flagBits entry) :=
      Nat.and_or_distrib_right ..
    rw [both, none, again, Nat.zero_or]

/-- The copy after the entries before `i`; from `i` on it is still `blank`. -/
structure ClonedUpTo (memory memory' : PageMemory) (level source new : Nat) (blank : Nat → Nat) (i : Nat)
    (taken : List Nat) : Prop where
  takes : Takes memory memory' (new :: taken)
  copied : EntriesCopied memory.words memory'.words (CopyOf memory.words memory'.words level) source new i
  frames : (framesBelow memory'.words (treeFrames memory'.words level) new i).Perm taken
  rest : ∀ j, i ≤ j → memory'.words new j = blank j

theorem framesBelow_succ (words : Nat → Nat → Nat) (below : Nat → List Nat) (table count : Nat) :
    framesBelow words below table (count + 1) = framesBelow words below table count ++
      if present (words table count) then below (entryAddr (words table count)) else [] := by
  unfold framesBelow
  rw [range_succ, flatMap_append, flatMap_singleton]

theorem ClonedUpTo.skip (cloned : ClonedUpTo memory memory' level source new blank i taken)
    (absent : present (memory.words source i) = false) (zero : blank i = 0) :
    ClonedUpTo memory memory' level source new blank (i + 1) taken := by
  have empty : memory'.words new i = 0 := (cloned.rest i (Nat.le_refl i)).trans zero
  constructor
  · exact cloned.takes
  · intro j bound
    by_cases last : j = i
    · subst last
      rw [empty, absent]
      exact ⟨by decide, fun h => nomatch h⟩
    · exact cloned.copied j (by omega)
  · rw [framesBelow_succ, empty, if_neg (by decide), append_nil]
    exact cloned.frames
  · exact fun j above => cloned.rest j (by omega)

/-- What cloning a tree comes to. -/
structure Cloned (memory memory' : PageMemory) (level source new : Nat) (taken : List Nat) : Prop where
  takes : Takes memory memory' taken
  copied : CopyOf memory.words memory'.words level source new
  frames : (treeFrames memory'.words level new).Perm taken

theorem ClonedUpTo.step {memory'' : PageMemory} {child : Nat} {more : List Nat}
    (cloned : ClonedUpTo memory memory' level source new blank i taken)
    (h : present (memory.words source i) = true)
    (tables : Tables memory level (entryAddr (memory.words source i)))
    (below : Cloned memory' memory'' level (entryAddr (memory.words source i)) child more) :
    ClonedUpTo memory (memory''.write new i (child ||| flagBits (memory.words source i))) level source new blank (i + 1)
      (taken ++ more) := by
  have mine : ∀ frame, frame ∈ new :: taken → memory''.words frame = memory'.words frame := by
    intro frame mem
    exact below.takes.old (cloned.takes.new mem)
  have ne : ∀ frame, frame ∈ taken ++ more → frame ≠ new := by
    intro frame mem eq
    have nodup := (cloned.takes.trans below.takes).nodup
    rw [cons_append, nodup_cons] at nodup
    exact nodup.1 (eq ▸ mem)
  have childManaged : Managed child := by
    apply (below.takes.fresh child (below.frames.mem_iff.mp _)).1
    cases level with
    | zero => exact .head _
    | succ level => exact mem_append_right _ (.head _)
  obtain ⟨addr, mapped, flags⟩ := cloned_entry childManaged.mappable (memory.words source i)
  have entries : ∀ j, (memory''.write new i (child ||| flagBits (memory.words source i))).words new j =
      if j = i then child ||| flagBits (memory.words source i) else memory'.words new j := by
    intro j
    rw [← mine new (.head _)]
    simp only [PageMemory.write, update_self, update_apply]
  have others : ∀ frame, frame ∈ taken ++ more →
      (memory''.write new i (child ||| flagBits (memory.words source i))).words frame = memory''.words frame := by
    intro frame mem
    exact update_of_ne (ne frame mem) _ _
  have oldFrames : ∀ j, j < i → present (memory'.words new j) = true →
      ∀ frame ∈ treeFrames memory'.words level (entryAddr (memory'.words new j)),
        (memory''.write new i (child ||| flagBits (memory.words source i))).words frame = memory'.words frame := by
    intro j bound there frame mem
    have inTaken : frame ∈ taken := cloned.frames.mem_iff.mp (mem_framesBelow bound there mem)
    rw [others frame (mem_append_left _ inTaken), mine frame (.tail _ inTaken)]
  have newFrames : ∀ frame ∈ treeFrames memory''.words level child,
      (memory''.write new i (child ||| flagBits (memory.words source i))).words frame = memory''.words frame := by
    intro frame mem
    exact others frame (mem_append_right _ (below.frames.mem_iff.mp mem))
  constructor
  · apply (cloned.takes.trans below.takes).rewrite
    intro frame out
    apply update_of_ne
    rintro rfl
    exact out (.head _)
  · intro j bound
    rw [entries j]
    by_cases last : j = i
    · subst last
      rw [if_pos rfl, mapped, addr]
      refine ⟨rfl, fun _ => ⟨flags, ?_⟩⟩
      exact (below.copied.earlier tables cloned.takes).kept newFrames
    · rw [if_neg last]
      obtain ⟨eq, rest⟩ := cloned.copied j (by omega)
      refine ⟨eq, fun there => ⟨(rest there).1, ?_⟩⟩
      exact (rest there).2.kept (oldFrames j (by omega) (eq.trans there))
  · rw [framesBelow_succ, entries i, if_pos rfl, mapped, if_pos h, addr, treeFrames_congr newFrames]
    apply List.Perm.append _ below.frames
    rw [framesBelow_congr]
    · exact cloned.frames
    · intro j bound
      rw [entries j, if_neg (by omega)]
    · intro j bound there
      exact treeFrames_congr (oldFrames j bound there)
  · intro j above
    rw [entries j, if_neg (by omega)]
    exact cloned.rest j (by omega)

theorem cloneEntries_spec {clone : Nat → PageMemory → Option Nat × PageMemory} {limit : Nat}
    (clones : ∀ {memory memory' : PageMemory} {table child : Nat}, Tables memory level table →
      clone table memory = (some child, memory') → ∃ taken, Cloned memory memory' level table child taken)
    (held : Held memory source) (tables : ∀ j, j < limit → present (memory.words source j) = true →
      Tables memory level (entryAddr (memory.words source j)))
    (zero : ∀ j, j < limit → blank j = 0) (count : Nat) {mid : PageMemory} (bound : i + count = limit)
    (cloned : ClonedUpTo memory mid level source new blank i taken)
    (ran : cloneEntries clone source new i count mid = (true, memory')) :
    ∃ taken, ClonedUpTo memory memory' level source new blank limit taken := by
  induction count generalizing i mid taken with
  | zero =>
    obtain ⟨_, rfl⟩ := Prod.mk.inj ran
    exact ⟨taken, bound ▸ cloned⟩
  | succ count ih =>
    unfold cloneEntries at ran
    rw [cloned.takes.old held] at ran
    cases h : present (memory.words source i) with
    | false =>
      rw [h] at ran
      exact ih (by omega) (cloned.skip h (zero i (by omega))) ran
    | true =>
      rw [h, Bool.not_true, if_neg Bool.false_ne_true] at ran
      rcases entry : clone (entryAddr (memory.words source i)) mid with ⟨hf, after⟩
      rw [entry] at ran
      cases hf with
      | none => exact nomatch ran
      | some child =>
        have below := tables i (by omega) h
        obtain ⟨more, subtree⟩ := clones (below.later cloned.takes) entry
        have kept : after.words source i = memory.words source i := by
          rw [(cloned.takes.trans subtree.takes).old held]
        dsimp only at ran
        rw [kept] at ran
        exact ih (by omega) (cloned.step h below subtree) ran

theorem cloneTable_spec {table : Nat} (tables : Tables memory level table)
    (ran : cloneTable level table memory = (some new, memory')) : ∃ taken, Cloned memory memory' level table new taken := by
  induction level generalizing memory memory' table new with
  | zero =>
    rw [cloneTable, clonePage] at ran
    rcases alloc : memory.allocPage with ⟨frame, after⟩
    rw [alloc] at ran
    dsimp only at ran
    split at ran
    case isTrue => exact nomatch ran
    case isFalse served =>
      obtain ⟨⟨rfl⟩, rfl⟩ := Prod.mk.inj ran
      obtain ⟨takes, eq⟩ := takes_allocPage alloc served
      refine ⟨[new], takes.rewrite fun other out => ?_, ?_, List.Perm.refl _⟩
      · grind
      · exact (update_self ..).trans (congrFun eq table)
  | succ level ih =>
    rw [cloneTable, cloneDirectory] at ran
    rcases alloc : memory.allocPage with ⟨frame, after⟩
    rw [alloc] at ran
    dsimp only at ran
    split at ran
    case isTrue => exact nomatch ran
    case isFalse served =>
      rcases loop : cloneEntries (cloneTable level) table frame 0 tableSize (after.clearPage frame) with ⟨done, last⟩
      rw [loop] at ran
      cases done with
      | false => exact nomatch ran
      | true =>
        obtain ⟨⟨rfl⟩, rfl⟩ := Prod.mk.inj ran
        obtain ⟨takes, eq⟩ := takes_allocPage alloc served
        have start : ClonedUpTo memory (after.clearPage new) level table new (fun _ => 0) 0 [] := by
          constructor
          · apply takes.rewrite
            intro other out
            exact update_of_ne (fun eq => out (mem_singleton.mpr eq)) _ _
          · exact fun j bound => absurd bound (Nat.not_lt_zero j)
          · exact List.Perm.refl _
          · intro j _
            have zero : (after.clearPage new).words new = fun _ => 0 := update_self ..
            rw [zero]
        obtain ⟨taken, cloned⟩ := cloneEntries_spec ih tables.1 (fun j bound h => (tables.2 j bound h).2)
          (fun _ _ => rfl) tableSize (Nat.zero_add _) start loop
        refine ⟨new :: taken, cloned.takes, cloned.copied, ?_⟩
        rw [treeFrames]
        exact (cloned.frames.append_right _).trans (perm_append_singleton ..)

theorem createUserAddressSpace_spec {kernelPML4 : Nat} (held : Held memory kernelPML4)
    (ran : createUserAddressSpace kernelPML4 memory = (new, memory')) (served : new ≠ 0) :
    Takes memory memory' [new] ∧
      memory'.words new = fun i => if userHalf ≤ i ∧ i < tableSize then memory.words kernelPML4 i else 0 := by
  unfold createUserAddressSpace at ran
  rcases alloc : memory.allocPage with ⟨frame, after⟩
  rw [alloc] at ran
  dsimp only at ran
  split at ran
  case isTrue => exact absurd (Prod.mk.inj ran).1.symm served
  case isFalse =>
    obtain ⟨rfl, rfl⟩ := Prod.mk.inj ran
    obtain ⟨takes, eq⟩ := takes_allocPage alloc served
    have ne : kernelPML4 ≠ frame := by
      intro clash
      exact (takes.held held).1 (mem_singleton.mpr clash)
    have kernel : (after.clearPage frame).words kernelPML4 = memory.words kernelPML4 := by
      rw [← eq]
      exact update_of_ne ne _ _
    rw [copyEntries, kernel]
    refine ⟨takes.rewrite fun other out => ?_, ?_⟩
    · have different : other ≠ frame := fun eq => out (mem_singleton.mpr eq)
      simp only [PageMemory.clearPage, update_of_ne different]
    · simp only [PageMemory.write, PageMemory.clearPage, update_self, update_of_ne ne]
      funext j
      rw [update_apply]
      split
      case isTrue index =>
        subst index
        rw [eq, if_pos (by decide)]
      case isFalse => rfl

theorem cloneUserAddressSpace_spec {kernelPML4 : Nat} (kernelHeld : Held memory kernelPML4)
    (tables : UserTables memory source) (ran : cloneUserAddressSpace kernelPML4 source memory = (new, memory'))
    (served : new ≠ 0) :
    ∃ taken, ClonedUpTo memory memory' 3 source new
      (fun i => if userHalf ≤ i ∧ i < tableSize then memory.words kernelPML4 i else 0) userHalf taken := by
  unfold cloneUserAddressSpace at ran
  rcases create : createUserAddressSpace kernelPML4 memory with ⟨frame, after⟩
  rw [create] at ran
  dsimp only at ran
  split at ran
  case isTrue => exact absurd (Prod.mk.inj ran).1.symm served
  case isFalse empty =>
    rcases loop : cloneEntries (cloneTable 3) source frame 0 userHalf after with ⟨done, last⟩
    rw [loop] at ran
    cases done with
    | false => exact absurd (Prod.mk.inj ran).1.symm served
    | true =>
      obtain ⟨rfl, rfl⟩ := Prod.mk.inj ran
      obtain ⟨takes, blank⟩ := createUserAddressSpace_spec kernelHeld create served
      have start : ClonedUpTo memory after 3 source frame
          (fun i => if userHalf ≤ i ∧ i < tableSize then memory.words kernelPML4 i else 0) 0 [] := by
        constructor
        · exact takes
        · exact fun j bound => absurd bound (Nat.not_lt_zero j)
        · exact List.Perm.refl _
        · intro j _
          exact congrFun blank j
      have zero : ∀ j, j < userHalf → (if userHalf ≤ j ∧ j < tableSize then memory.words kernelPML4 j else 0) = 0 := by
        intro j bound
        exact if_neg (by omega)
      exact cloneEntries_spec cloneTable_spec tables.1 tables.2 zero userHalf (Nat.zero_add userHalf) start loop

end

/-! ## Tearing down -/

section

variable {memory : PageMemory} {table : Nat}

def freeAll (memory : PageMemory) (frames : List Nat) : PageMemory := frames.foldl PageMemory.free memory

theorem freeAll_words (frames : List Nat) : (freeAll memory frames).words = memory.words := by
  induction frames generalizing memory with
  | nil => rfl
  | cons frame rest ih => exact ih

theorem freeAll_freed (frames : List Nat) : (freeAll memory frames).freed = memory.freed ++ frames := by
  induction frames generalizing memory with
  | nil => exact (append_nil _).symm
  | cons frame rest ih =>
    refine (ih : _ = (memory.free frame).freed ++ rest).trans ?_
    rw [PageMemory.free, append_assoc, singleton_append]

theorem freeAll_frames {frames : List Nat} (managed : ∀ frame ∈ frames, Managed frame) (k : Nat) :
    ((freeAll memory frames).frames.used k = true ↔ memory.frames.used k = true ∧ physBase + k * pageSize ∉ frames) ∧
      (freeAll memory frames).frames.low = memory.frames.low := by
  induction frames generalizing memory with
  | nil => simp [freeAll]
  | cons frame rest ih =>
    obtain ⟨start, bound, rfl⟩ := managed frame (.head _)
    have one := @used_physicalFreePages memory.frames start 1 bound k
    have low : (memory.free (physBase + start * pageSize)).frames.low = memory.frames.low := by
      unfold PageMemory.free physicalFreePages
      rw [if_neg (by simp only [physBase]; omega), if_neg (by simp only [physBase]; omega)]
      split
      case isTrue => rfl
      case isFalse => rfl
    obtain ⟨used, sameLow⟩ := @ih (memory.free (physBase + start * pageSize))
      fun frame mem => managed frame (.tail _ mem)
    refine ⟨used.trans ?_, sameLow.trans low⟩
    have addr : physBase + k * pageSize = physBase + start * pageSize ↔ start ≤ k ∧ k < start + 1 := by
      simp only [pageSize]
      omega
    rw [PageMemory.free, one, mem_cons, not_or, addr]
    simp only [Bool.and_eq_true, Bool.not_eq_true', decide_eq_false_iff_not]
    rw [and_assoc, and_left_comm]

theorem freeAll_append (frames more : List Nat) : freeAll memory (frames ++ more) = freeAll (freeAll memory frames) more :=
  foldl_append

theorem freeEntries_eq {visit : Nat → PageMemory → PageMemory} {words : Nat → Nat → Nat} {below : Nat → List Nat}
    (count : Nat) {i : Nat}
    (visits : ∀ (memory : PageMemory) j, memory.words = words → i ≤ j → j < i + count →
      present (words table j) = true → visit (words table j) memory = freeAll memory (below (entryAddr (words table j))))
    (eq : memory.words = words) :
    freeEntries visit table i count memory =
      freeAll memory ((range' i count).flatMap fun j =>
        if present (words table j) then below (entryAddr (words table j)) else []) := by
  induction count generalizing i memory with
  | zero => rfl
  | succ count ih =>
    unfold freeEntries
    rw [List.range'_succ, flatMap_cons, freeAll_append, eq]
    have next : (if present (words table i) = true then visit (words table i) memory else memory) =
        freeAll memory (if present (words table i) = true then below (entryAddr (words table i)) else []) := by
      by_cases h : present (words table i) = true
      · grind
      · rw [if_neg h, if_neg h]
        rfl
    rw [next]
    apply ih
    · grind
    · rw [freeAll_words, eq]

/-- No large page among the tables. -/
def Plain (words : Nat → Nat → Nat) : Nat → Nat → Prop
  | 0, _ => True
  | level + 1, table => ∀ i, i < tableSize → present (words table i) = true →
      (level = 1 ∨ level = 2 → huge (words table i) = false) ∧ Plain words level (entryAddr (words table i))

theorem CopyOf.plain {words : Nat → Nat → Nat} {level copy : Nat} (copied : CopyOf memory.words words level table copy)
    (tables : Tables memory level table) : Plain words level copy := by
  induction level generalizing table copy with
  | zero => trivial
  | succ level ih =>
    intro i bound h
    obtain ⟨mapped, rest⟩ := copied i bound
    rw [mapped] at h
    obtain ⟨flags, below⟩ := rest h
    obtain ⟨lt, tables⟩ := tables.2 i bound h
    constructor
    · intro mid
      rw [← huge_flagBits, flags, huge_flagBits]
      exact lt mid
    · exact ih below tables

variable {words : Nat → Nat → Nat} {entry : Nat}

theorem freeTable_eq {visit : Nat → PageMemory → PageMemory} (level : Nat)
    (visits : ∀ (memory : PageMemory) j, memory.words = words → j < tableSize → present (words table j) = true →
      visit (words table j) memory = freeAll memory (treeFrames words level (entryAddr (words table j))))
    (eq : memory.words = words) :
    (freeEntries visit table 0 tableSize memory).free table = freeAll memory (treeFrames words (level + 1) table) := by
  rw [treeFrames, freeAll_append, framesBelow, range_eq_range', freeEntries_eq tableSize _ eq]
  · rfl
  · grind

theorem freePt_eq (lt : huge entry = false) (eq : memory.words = words) :
    freePt entry memory = freeAll memory (treeFrames words 1 (entryAddr entry)) := by
  rw [freePt, lt, if_neg Bool.false_ne_true]
  apply freeTable_eq 0 _ eq
  intro memory j _ _ _
  rfl

theorem freePd_eq (lt : huge entry = false) (plain : Plain words 2 (entryAddr entry)) (eq : memory.words = words) :
    freePd entry memory = freeAll memory (treeFrames words 2 (entryAddr entry)) := by
  rw [freePd, lt, if_neg Bool.false_ne_true]
  apply freeTable_eq 1 _ eq
  intro memory j eq bound h
  exact freePt_eq ((plain j bound h).1 (.inl rfl)) eq

theorem freePdpt_eq (plain : Plain words 3 (entryAddr entry)) (eq : memory.words = words) :
    freePdpt entry memory = freeAll memory (treeFrames words 3 (entryAddr entry)) := by
  rw [freePdpt]
  apply freeTable_eq 2 _ eq
  intro memory j eq bound h
  exact freePd_eq ((plain j bound h).1 (.inr rfl)) (plain j bound h).2 eq

theorem freeUserAddressSpace_eq {cr3 : Nat} (nz : cr3 ≠ 0)
    (plain : ∀ i, i < userHalf → present (memory.words cr3 i) = true → Plain memory.words 3 (entryAddr (memory.words cr3 i))) :
    freeUserAddressSpace cr3 memory = freeAll memory (spaceFrames memory.words cr3) := by
  rw [freeUserAddressSpace, if_neg nz, spaceFrames, userFrames, freeAll_append, framesBelow, range_eq_range',
    freeEntries_eq userHalf _ rfl]
  · rfl
  · intro memory' j eq _ high h
    exact freePdpt_eq (plain j (by omega) h) eq

theorem bitmaps_ext {maps maps' : Bitmaps} (used : ∀ k, maps.used k = true ↔ maps'.used k = true)
    (low : maps.low = maps'.low) : maps = maps' := by
  obtain ⟨phys, low⟩ := maps
  obtain ⟨phys', low'⟩ := maps'
  subst low
  refine congrArg (fun phys => Bitmaps.mk phys low) ?_
  funext n
  apply BitVec.eq_of_getLsbD_eq
  intro i bound
  have bit := Bool.eq_iff_iff.mpr (used (8 * n + i))
  simp only [Bitmaps.used, bitmapTest_eq] at bit
  rwa [show (8 * n + i) / 8 = n by omega, show (8 * n + i) % 8 = i by omega] at bit

theorem Takes.back {memory' : PageMemory} {taken : List Nat} (takes : Takes memory memory' taken) :
    (freeAll memory' taken).frames = memory.frames := by
  have managed : ∀ frame ∈ taken, Managed frame := fun frame mem => (takes.fresh frame mem).1
  apply bitmaps_ext
  · intro k
    rw [(freeAll_frames managed k).1, takes.used]
    constructor
    · grind
    · intro pre
      refine ⟨.inl pre, fun mem => ?_⟩
      obtain ⟨⟨own, bound, eq⟩, unused⟩ := takes.fresh _ mem
      have index : k = own := by
        simp only [pageSize] at eq
        omega
      exact unused ⟨k, index ▸ bound, rfl, pre⟩
  · rw [(freeAll_frames managed 0).2, takes.low]

end

/-! ## The clone -/

section

variable {memory memory' : PageMemory} {kernelPML4 source new : Nat}

theorem EntriesCopied.entries {level table copy count virtAddr : Nat}
    (copied : EntriesCopied memory.words memory'.words (CopyOf memory.words memory'.words level) table copy count)
    (hin : tableIndex level virtAddr < count) :
    (entriesFrom memory' virtAddr level copy).map flagBits = (entriesFrom memory virtAddr level table).map flagBits ∧
      ∀ pte pte', (entriesFrom memory virtAddr level table)[level]? = some pte →
        (entriesFrom memory' virtAddr level copy)[level]? = some pte' →
        memory'.words (entryAddr pte') = memory.words (entryAddr pte) := by
  induction level generalizing table copy count with
  | zero =>
    obtain ⟨mapped, rest⟩ := copied _ hin
    unfold entriesFrom
    dsimp only
    rw [mapped]
    by_cases h : present (memory.words table (tableIndex 0 virtAddr)) = true
    · rw [if_pos h, if_pos h]
      refine ⟨congrArg (fun bits => [bits]) (rest h).1, fun pte pte' hf hf' => ?_⟩
      cases hf
      cases hf'
      exact (rest h).2
    · grind
  | succ level ih =>
    obtain ⟨mapped, rest⟩ := copied _ hin
    unfold entriesFrom
    dsimp only
    rw [mapped]
    by_cases h : present (memory.words table (tableIndex (level + 1) virtAddr)) = true
    · rw [if_pos h, if_pos h, map_cons, map_cons, (rest h).1]
      obtain ⟨flags, pages⟩ := ih (rest h).2 (tableIndex_lt level virtAddr)
      rw [flags]
      exact ⟨rfl, pages⟩
    · rw [if_neg h, if_neg h]
      exact ⟨rfl, fun pte pte' hf => nomatch hf⟩

theorem Tables.held_frames {level table frame : Nat} (tables : Tables memory level table)
    (mem : frame ∈ treeFrames memory.words level table) : Held memory frame := by
  induction level generalizing table with
  | zero =>
    rw [mem_singleton.mp mem]
    exact tables
  | succ level ih =>
    cases mem_append.mp mem with
    | inl under =>
      obtain ⟨i, bound, h, hin⟩ := of_mem_framesBelow under
      exact ih (tables.2 i bound h).2 hin
    | inr own =>
      rw [mem_singleton.mp own]
      exact tables.1

theorem UserTables.held_frames {frame : Nat} (tables : UserTables memory source)
    (mem : frame ∈ spaceFrames memory.words source) : Held memory frame := by
  cases mem_append.mp mem with
  | inl under =>
    obtain ⟨i, bound, h, hin⟩ := of_mem_framesBelow under
    exact (tables.2 i bound h).held_frames hin
  | inr own =>
    rw [mem_singleton.mp own]
    exact tables.1

/-- A clone with its own copy of the user half, and what becomes of it. -/
structure DeepCopy (memory memory' : PageMemory) (kernelPML4 source new : Nat) : Prop where
  flags : ∀ virtAddr, virtAddr < 2 ^ 47 →
    (entriesOf memory' new virtAddr).map flagBits = (entriesOf memory source virtAddr).map flagBits
  pages : ∀ virtAddr pte pte', virtAddr < 2 ^ 47 → (entriesOf memory source virtAddr)[3]? = some pte →
    (entriesOf memory' new virtAddr)[3]? = some pte' → memory'.words (entryAddr pte') = memory.words (entryAddr pte)
  fresh : ∀ frame ∈ spaceFrames memory'.words new, Managed frame ∧ ¬ memory.InUse frame ∧
    frame ∉ spaceFrames memory.words source
  kernel : ∀ i, userHalf ≤ i → i < tableSize → memory'.words new i = memory.words kernelPML4 i
  untouched : ∀ frame, Held memory frame → memory'.words frame = memory.words frame
  torn : ∃ log, (freeUserAddressSpace new memory').freed = memory.freed ++ log ∧ log.Nodup ∧
    ∀ frame, frame ∈ log ↔ memory'.InUse frame ∧ ¬ memory.InUse frame
  restored : (freeUserAddressSpace new memory').frames = memory.frames

theorem clone_deep (kernelHeld : Held memory kernelPML4) (tables : UserTables memory source)
    (ran : cloneUserAddressSpace kernelPML4 source memory = (new, memory')) (served : new ≠ 0) :
    DeepCopy memory memory' kernelPML4 source new := by
  obtain ⟨taken, cloned⟩ := cloneUserAddressSpace_spec kernelHeld tables ran served
  have takes : Takes memory memory' (spaceFrames memory'.words new) := by
    apply cloned.takes.perm
    exact (cloned.frames.append_right _).trans (perm_append_singleton ..)
  have low : ∀ virtAddr, virtAddr < 2 ^ 47 → tableIndex 3 virtAddr < userHalf := by
    intro virtAddr lt
    rw [tableIndex_eq, userHalf]
    omega
  have torn : freeUserAddressSpace new memory' = freeAll memory' (spaceFrames memory'.words new) := by
    apply freeUserAddressSpace_eq served
    intro i bound h
    obtain ⟨mapped, rest⟩ := cloned.copied i bound
    rw [mapped] at h
    exact (rest h).2.plain (tables.2 i bound h)
  constructor
  · exact fun virtAddr lt => (cloned.copied.entries (low virtAddr lt)).1
  · exact fun virtAddr pte pte' lt => (cloned.copied.entries (low virtAddr lt)).2 pte pte'
  · intro frame mem
    obtain ⟨managed, unused⟩ := takes.fresh frame mem
    exact ⟨managed, unused, fun mine => unused (tables.held_frames mine managed)⟩
  · intro i above bound
    rw [cloned.rest i above, if_pos ⟨above, bound⟩]
  · exact fun frame held => takes.old held
  · refine ⟨spaceFrames memory'.words new, ?_, takes.nodup, fun frame => ?_⟩
    · rw [torn, freeAll_freed, takes.freed]
    · rw [takes.inUse]
      constructor
      · intro mem
        exact ⟨.inr mem, (takes.fresh frame mem).2⟩
      · grind
  · rw [torn]
    exact takes.back

end

def onePageSpace : PageMemory where
  frames := ⟨fun byte => if byte = 0 then 0x3F#8 else 0#8, fun _ => 0#8⟩
  words table i :=
    if table = 0x100000 ∧ i = 256 then 0x3
    else if table = 0x101000 ∧ i = 0 then 0x102007
    else if table = 0x102000 ∧ i = 0 then 0x103007
    else if table = 0x103000 ∧ i = 0 then 0x104007
    else if table = 0x104000 ∧ i = 1 then 0x105005
    else 0
  freed := []

theorem onePageSpace_held {k : Nat} (bound : k < 6) : Held onePageSpace (0x100000 + k * 4096) := by
  intro _
  refine ⟨k, Nat.lt_trans bound (by decide), rfl, ?_⟩
  have all : ∀ k, k < 6 → onePageSpace.frames.used k = true := by decide
  exact all k bound

theorem onePageSpace_entry {table entry k : Nat} (i : Nat)
    (only : ∀ i, onePageSpace.words table i = if i = k then entry else 0)
    (h : present (onePageSpace.words table i) = true) : onePageSpace.words table i = entry := by
  rw [only] at h ⊢
  by_cases eq : i = k
  · rw [if_pos eq]
  · rw [if_neg eq] at h
    exact nomatch h

theorem onePageSpace_tables : UserTables onePageSpace 0x101000 := by
  have pml4 : ∀ i, onePageSpace.words 0x101000 i = if i = 0 then 0x102007 else 0 := by simp [onePageSpace]
  have pdpt : ∀ i, onePageSpace.words 0x102000 i = if i = 0 then 0x103007 else 0 := by simp [onePageSpace]
  have pd : ∀ i, onePageSpace.words 0x103000 i = if i = 0 then 0x104007 else 0 := by simp [onePageSpace]
  have pt : ∀ i, onePageSpace.words 0x104000 i = if i = 1 then 0x105005 else 0 := by simp [onePageSpace]
  refine ⟨@onePageSpace_held 1 (by decide), fun i _ h => ?_⟩
  rw [onePageSpace_entry i pml4 h, show entryAddr 0x102007 = 0x102000 by decide]
  refine ⟨@onePageSpace_held 2 (by decide), fun i _ h => ?_⟩
  rw [onePageSpace_entry i pdpt h, show entryAddr 0x103007 = 0x103000 by decide]
  refine ⟨fun _ => by decide, @onePageSpace_held 3 (by decide), fun i _ h => ?_⟩
  rw [onePageSpace_entry i pd h, show entryAddr 0x104007 = 0x104000 by decide]
  refine ⟨fun _ => by decide, @onePageSpace_held 4 (by decide), fun i _ h => ?_⟩
  rw [onePageSpace_entry i pt h]
  exact ⟨fun _ => by decide, @onePageSpace_held 5 (by decide)⟩

theorem one_page_cloned : DeepCopy onePageSpace (cloneUserAddressSpace 0x100000 0x101000 onePageSpace).2 0x100000 0x101000
    0x106000 := by
  have first : (cloneUserAddressSpace 0x100000 0x101000 onePageSpace).1 = 0x106000 := by decide +kernel
  rw [← first]
  exact clone_deep (@onePageSpace_held 0 (by decide)) onePageSpace_tables Prod.mk.eta.symm (first ▸ by decide)

end RosKernel.Process
