import Mathlib.Data.Finset.Card
import RosKernel.Memory.Kmalloc

/-! The free list of the kernel heap as a list of spans, and what each list
operation does to that list.

Every operation writes only inside block headers and inside the block it takes, so
its effect on the rest of memory is a statement about bytes.
-/

set_option autoImplicit false

namespace RosKernel.Memory

open Library List Option

/-! ## Header fields -/

section

variable {mem other : Bytes} {block value : Nat}

def SameHeader (mem other : Bytes) (block : Nat) : Prop := SameBytes mem other block headerSize

theorem SameHeader.size (eq : SameHeader mem other block) : blockSize other block = blockSize mem block :=
  load_congr (eq.mono (Nat.le_refl _) (by simp only [headerSize]; omega))

theorem SameHeader.magic (eq : SameHeader mem other block) : blockMagic other block = blockMagic mem block :=
  load_congr (eq.mono (by omega) (by simp only [headerSize]; omega))

theorem SameHeader.next (eq : SameHeader mem other block) : blockNext other block = blockNext mem block :=
  load_congr (eq.mono (by omega) (by simp only [headerSize]; omega))

section

variable {written : Nat} (ne : block + headerSize ≤ written ∨ written + headerSize ≤ block)
include ne

theorem sameHeader_setSize : SameHeader mem (setSize mem written value) block :=
  sameBytes_store (by simp only [headerSize] at ne ⊢; omega)

theorem sameHeader_setMagic : SameHeader mem (setMagic mem written value) block :=
  sameBytes_store (by simp only [headerSize] at ne ⊢; omega)

theorem sameHeader_setNext : SameHeader mem (setNext mem written value) block :=
  sameBytes_store (by simp only [headerSize] at ne ⊢; omega)

end

theorem blockNext_lt (mem : Bytes) (block : Nat) : blockNext mem block < 2 ^ 64 := load_lt mem (block + 16) 8

theorem blockSize_setSize (lt : value < 2 ^ 64) : blockSize (setSize mem block value) block = value :=
  (load_store mem block 8 value).trans (Nat.mod_eq_of_lt lt)

theorem blockMagic_setMagic (lt : value < 2 ^ 32) : blockMagic (setMagic mem block value) block = value :=
  (load_store mem (block + 8) 4 value).trans (Nat.mod_eq_of_lt lt)

theorem blockNext_setNext (lt : value < 2 ^ 64) : blockNext (setNext mem block value) block = value :=
  (load_store mem (block + 16) 8 value).trans (Nat.mod_eq_of_lt lt)

@[simp] theorem blockMagic_setSize : blockMagic (setSize mem block value) block = blockMagic mem block :=
  load_store_apart (by omega)

@[simp] theorem blockSize_setMagic : blockSize (setMagic mem block value) block = blockSize mem block :=
  load_store_apart (by omega)

@[simp] theorem blockSize_setNext : blockSize (setNext mem block value) block = blockSize mem block :=
  load_store_apart (by omega)

@[simp] theorem blockMagic_setNext : blockMagic (setNext mem block value) block = blockMagic mem block :=
  load_store_apart (by omega)

end

theorem freeHeader (mem : Bytes) (block : Nat) {size next : Nat} (sizeSmall : size < 2 ^ 64)
    (nextSmall : next < 2 ^ 64) :
    ∃ mem', setNext (setMagic (setSize mem block size) block magicFree) block next = mem' ∧
      blockSize mem' block = size ∧ blockMagic mem' block = magicFree ∧ blockNext mem' block = next ∧
      ∀ pos, pos < block ∨ block + headerSize ≤ pos → mem' pos = mem pos := by
  refine ⟨_, rfl, ?_, ?_, blockNext_setNext nextSmall, fun pos out => ?_⟩
  · rw [blockSize_setNext, blockSize_setMagic, blockSize_setSize sizeSmall]
  · rw [blockMagic_setNext, blockMagic_setMagic (by decide)]
  · simp only [headerSize] at out
    rw [setNext, store_outside (by omega), setMagic, store_outside (by omega), setSize, store_outside (by omega)]

/-! ## Paths through the free list -/

/-- Following next pointers from `head` visits the free blocks `spans` and arrives at `tail`. -/
def FreePath (mem : Bytes) : Nat → List Span → Nat → Prop
  | head, [], tail => head = tail
  | head, span :: rest, tail => head = span.start ∧ 0 < span.start ∧ blockSize mem span.start = span.len ∧
      blockMagic mem span.start = magicFree ∧ FreePath mem (blockNext mem span.start) rest tail

/-- Blocks in address order, each with room for its header. -/
structure Ordered (spans : List Span) : Prop where
  room : ∀ span ∈ spans, headerSize ≤ span.len
  order : spans.Pairwise fun left right => left.stop ≤ right.start

section

variable {mem other : Bytes} {head tail target : Nat} {before after spans : List Span} {span : Span}

theorem freePath_append : FreePath mem head (before ++ after) tail ↔
    ∃ mid, FreePath mem head before mid ∧ FreePath mem mid after tail := by
  induction before generalizing head with
  | nil => exact ⟨fun path => ⟨head, rfl, path⟩, fun ⟨_, eq, path⟩ => eq ▸ path⟩
  | cons span rest ih =>
    simp only [cons_append, FreePath, ih]
    constructor
    · grind
    · grind

section

variable (path : FreePath mem head spans tail)
include path

theorem FreePath.frame (eq : ∀ span ∈ spans, SameHeader mem other span.start) : FreePath other head spans tail := by
  induction spans generalizing head with
  | nil => exact path
  | cons span rest ih =>
    obtain ⟨start, named, size, magic, path⟩ := path
    have header := eq span (.head _)
    refine ⟨start, named, header.size.trans size, header.magic.trans magic, ?_⟩
    rw [header.next]
    exact ih path fun other member => eq other (.tail _ member)

theorem FreePath.member (member : span ∈ spans) :
    0 < span.start ∧ blockSize mem span.start = span.len ∧ blockMagic mem span.start = magicFree := by
  obtain ⟨first, snd, rfl⟩ := append_of_mem member
  obtain ⟨mid, _, path⟩ := freePath_append.mp path
  exact ⟨path.2.1, path.2.2.1, path.2.2.2.1⟩

theorem FreePath.head_eq : head = (spans.head?.map Span.start).getD tail := by
  cases spans with
  | nil => exact path
  | cons span rest => exact path.1

end

theorem FreePath.chain (path : FreePath mem head spans 0) :
    Chain (nextBlock mem) (pointer head) (spans.map Span.start) := by
  induction spans generalizing head with
  | nil =>
    obtain rfl : head = 0 := path
    rfl
  | cons span rest ih =>
    obtain ⟨rfl, named, _, _, path⟩ := path
    exact ⟨if_neg (by omega), ih path⟩

theorem ordered_append : Ordered (before ++ after) ↔
    Ordered before ∧ Ordered after ∧ ∀ left ∈ before, ∀ right ∈ after, left.stop ≤ right.start := by
  constructor
  · rintro ⟨room, order⟩
    rw [pairwise_append] at order
    exact ⟨⟨fun span member => room span (mem_append_left _ member), order.1⟩,
      ⟨fun span member => room span (mem_append_right _ member), order.2.1⟩, order.2.2⟩
  · rintro ⟨first, snd, across⟩
    refine ⟨fun span member => ?_, pairwise_append.mpr ⟨first.order, snd.order, across⟩⟩
    rcases mem_append.mp member with member | member
    · exact first.room span member
    · exact snd.room span member

theorem Ordered.apart (ord : Ordered (before ++ span :: after)) :
    (∀ left ∈ before, left.start + headerSize ≤ span.start) ∧
      ∀ right ∈ after, span.start + headerSize ≤ right.start := by
  obtain ⟨first, snd, across⟩ := ordered_append.mp ord
  have order := pairwise_cons.mp snd.order
  constructor
  · intro left member
    have gap := across left member span (.head _)
    have room := first.room left member
    simp only [Span.stop] at gap
    omega
  · intro right member
    have gap := order.1 right member
    have room := snd.room span (.head _)
    simp only [Span.stop] at gap
    omega

theorem FreePath.relink {heap : Heap} {mid : Nat} (first : FreePath heap.mem heap.freeList before mid)
    (rest : FreePath heap.mem target after tail) (ord : Ordered (before ++ after)) (lt : target < 2 ^ 64) :
    FreePath (heap.relink (before.getLast?.map Span.start) target).mem
      (heap.relink (before.getLast?.map Span.start) target).freeList (before ++ after) tail := by
  rcases eq_nil_or_concat' before with rfl | ⟨init, last, rfl⟩
  · exact rest
  · rw [append_assoc, singleton_append] at ord ⊢
    obtain ⟨low, high⟩ := ord.apart
    obtain ⟨link, initPath, start, named, size, magic, _⟩ := freePath_append.mp first
    simp only [getLast?_concat, map_some, Heap.relink]
    refine freePath_append.mpr ⟨link, initPath.frame fun span member => ?_, start, named, ?_, ?_, ?_⟩
    · exact sameHeader_setNext (.inl (low span member))
    · rw [blockSize_setNext, size]
    · rw [blockMagic_setNext, magic]
    · rw [blockNext_setNext lt]
      exact rest.frame fun span member => sameHeader_setNext (.inr (high span member))

theorem FreePath.absorb {heap : Heap} {first snd : Span}
    (path : FreePath heap.mem head (before ++ first :: snd :: after) tail)
    (ord : Ordered (before ++ first :: snd :: after)) (lt : first.len + snd.len < 2 ^ 64) :
    FreePath (heap.absorb first.start snd.start).mem head
      (before ++ ⟨first.start, first.len + snd.len⟩ :: after) tail := by
  obtain ⟨low, high⟩ := ord.apart
  obtain ⟨link, beforePath, start, named, size, magic, follow, secondNamed, secondSize, secondMagic, afterPath⟩ :=
    freePath_append.mp path
  have secondHigh := high snd (.head _)
  have next : blockNext (setSize heap.mem first.start (add64 (blockSize heap.mem first.start)
      (blockSize heap.mem snd.start))) snd.start = blockNext heap.mem snd.start :=
    (sameHeader_setSize (.inr secondHigh)).next
  simp only [Heap.absorb, next]
  have out : ∀ span : Span, span.start + headerSize ≤ first.start ∨ first.start + headerSize ≤ span.start →
      SameHeader heap.mem (setNext (setSize heap.mem first.start (add64 (blockSize heap.mem first.start)
        (blockSize heap.mem snd.start))) first.start (blockNext heap.mem snd.start)) span.start :=
    fun span ne => (sameHeader_setSize ne).trans (sameHeader_setNext ne)
  refine freePath_append.mpr ⟨link, beforePath.frame fun span member => out span (.inl (low span member)),
    start, named, ?_, ?_, ?_⟩
  · rw [blockSize_setNext, size, secondSize, add64_eq lt, blockSize_setSize lt]
  · rw [blockMagic_setNext, blockMagic_setSize, magic]
  · rw [blockNext_setNext (blockNext_lt _ _)]
    exact afterPath.frame fun span member => out span (.inr (high span (.tail _ member)))

end

/-! ## Inserting a block -/

section

variable {heap : Heap} {before after : List Span} {block : Span}

/-- Only bytes of the headers that start at `starts` differ. -/
def HeadersOnly (mem other : Bytes) (starts : List Nat) : Prop :=
  ∀ pos, (∀ start ∈ starts, pos < start ∨ start + headerSize ≤ pos) → other pos = mem pos

theorem HeadersOnly.trans {mem other third : Bytes} {starts : List Nat} (first : HeadersOnly mem other starts)
    (snd : HeadersOnly other third starts) : HeadersOnly mem third starts :=
  fun pos out => (snd pos out).trans (first pos out)

section

variable {starts : List Nat} {start : Nat} (member : start ∈ starts)
include member

theorem headersOnly_setSize {mem : Bytes} {value : Nat} :
    HeadersOnly mem (setSize mem start value) starts := fun pos out => store_outside (by
  have := out start member
  simp only [headerSize] at this
  omega)

theorem headersOnly_setMagic {mem : Bytes} {value : Nat} :
    HeadersOnly mem (setMagic mem start value) starts := fun pos out => store_outside (by
  have := out start member
  simp only [headerSize] at this
  omega)

theorem headersOnly_setNext {mem : Bytes} {value : Nat} :
    HeadersOnly mem (setNext mem start value) starts := fun pos out => store_outside (by
  have := out start member
  simp only [headerSize] at this
  omega)

end

theorem headersOnly_absorb {starts : List Nat} {first : Nat} (snd : Nat) (member : first ∈ starts) :
    HeadersOnly heap.mem (heap.absorb first snd).mem starts :=
  (headersOnly_setSize member).trans (headersOnly_setNext member)

theorem headersOnly_coalesceNext {starts : List Nat} {start : Nat} (member : start ∈ starts) :
    HeadersOnly heap.mem (heap.coalesceNext start).mem starts := by
  unfold Heap.coalesceNext
  split
  · exact fun _ _ => rfl
  · split
    · exact headersOnly_absorb _ member
    · exact fun _ _ => rfl

theorem headersOnly_coalescePrev {starts : List Nat} {prev : Option Nat} (start : Nat)
    (member : ∀ block, prev = some block → block ∈ starts) :
    HeadersOnly heap.mem (heap.coalescePrev prev start).mem starts := by
  cases prev with
  | none => exact fun _ _ => rfl
  | some prev =>
    simp only [Heap.coalescePrev]
    split
    · exact headersOnly_absorb _ (member prev rfl)
    · exact fun _ _ => rfl

theorem headersOnly_relink {starts : List Nat} {prev : Option Nat} (target : Nat)
    (member : ∀ block, prev = some block → block ∈ starts) :
    HeadersOnly heap.mem (heap.relink prev target).mem starts := by
  cases prev with
  | none => exact fun _ _ => rfl
  | some prev => exact headersOnly_setNext (member prev rfl)

theorem Heap.relink_eq (prev : Option Nat) (target : Nat) : heap.relink prev target = { heap with
    mem := (heap.relink prev target).mem
    freeList := (heap.relink prev target).freeList } := by
  cases prev <;> rfl

theorem Heap.coalesceNext_eq (start : Nat) : heap.coalesceNext start = { heap with
    mem := (heap.coalesceNext start).mem
    freeList := (heap.coalesceNext start).freeList } := by
  unfold coalesceNext
  split
  · rfl
  · split <;> rfl

theorem Heap.coalescePrev_eq (prev : Option Nat) (start : Nat) : heap.coalescePrev prev start = { heap with
    mem := (heap.coalescePrev prev start).mem
    freeList := (heap.coalescePrev prev start).freeList } := by
  cases prev with
  | none => rfl
  | some prev =>
    simp only [coalescePrev]
    split <;> rfl

theorem FreePath.coalesceNext (path : FreePath heap.mem heap.freeList (before ++ block :: after) 0)
    (ord : Ordered (before ++ block :: after)) (bounded : ∀ span ∈ block :: after, span.stop ≤ 2 ^ 64) :
    FreePath (heap.coalesceNext block.start).mem (heap.coalesceNext block.start).freeList
      (before ++ joinRight block after) 0 := by
  obtain ⟨link, beforePath, start, named, size, magic, rest⟩ := freePath_append.mp path
  have follow := rest.head_eq
  unfold Heap.coalesceNext
  cases after with
  | nil =>
    change blockNext heap.mem block.start = 0 at follow
    rw [if_pos follow]
    exact path
  | cons next rest' =>
    have blockStop := bounded block (.head _)
    have nextStop := bounded next (.tail _ (.head _))
    have nextRoom := ord.room next (by simp)
    have gap := (pairwise_cons.mp (ordered_append.mp ord).2.1.order).1 next (.head _)
    have nextNamed := rest.2.1
    change blockNext heap.mem block.start = next.start at follow
    simp only [headerSize, Span.stop] at nextRoom gap blockStop nextStop
    rw [follow, if_neg (by omega), size, add64_eq (by omega)]
    by_cases touch : block.start + block.len = next.start
    · rw [if_pos touch, joinRight_touch touch]
      exact path.absorb ord (by omega)
    · rw [if_neg touch, joinRight_apart touch]
      exact path

theorem Ordered.joinRight (ord : Ordered (before ++ block :: after)) :
    Ordered (before ++ Library.joinRight block after) := by
  cases after with
  | nil => exact ord
  | cons next rest =>
    by_cases touch : block.stop = next.start
    · rw [joinRight_touch touch]
      obtain ⟨first, snd, across⟩ := ordered_append.mp ord
      obtain ⟨gap, order⟩ := pairwise_cons.mp snd.order
      have room := snd.room block (.head _)
      refine ordered_append.mpr ⟨first, ⟨?_, pairwise_cons.mpr ⟨?_, (pairwise_cons.mp order).2⟩⟩, ?_⟩
      · refine forall_mem_cons.mpr ⟨Nat.le_add_right_of_le room, fun span member => ?_⟩
        exact snd.room span (.tail _ (.tail _ member))
      · intro right member
        have := (pairwise_cons.mp order).1 right member
        simp only [Span.stop] at touch this ⊢
        omega
      · grind
    · rw [joinRight_apart touch]
      exact ord

theorem stop_le_joinRight {bound : Nat} (bounded : ∀ span ∈ block :: after, span.stop ≤ bound) :
    ∀ span ∈ Library.joinRight block after, span.stop ≤ bound := by
  cases after with
  | nil => exact bounded
  | cons next rest =>
    by_cases touch : block.stop = next.start
    · rw [joinRight_touch touch]
      obtain ⟨_, nextBounded, restBounded⟩ := forall_mem_cons.mp bounded |>.imp id forall_mem_cons.mp
      refine forall_mem_cons.mpr ⟨?_, restBounded⟩
      simp only [Span.stop] at touch nextBounded ⊢
      omega
    · rw [joinRight_apart touch]
      exact bounded

theorem FreePath.coalescePrev (path : FreePath heap.mem heap.freeList (before ++ joinRight block after) 0)
    (ord : Ordered (before ++ block :: after)) (lt : block.start < 2 ^ 64)
    (bounded : ∀ span ∈ block :: after, span.stop ≤ 2 ^ 64) :
    FreePath (heap.coalescePrev (before.getLast?.map Span.start) block.start).mem
      (heap.coalescePrev (before.getLast?.map Span.start) block.start).freeList (insertSpan before block after) 0 := by
  rcases eq_nil_or_concat' before with rfl | ⟨init, left, rfl⟩
  · exact path
  · obtain ⟨joined, rest, eq, start, extend⟩ := joinRight_eq_cons block after
    have joinedOrdered := ord.joinRight
    have joinedStop := stop_le_joinRight bounded joined (by rw [eq]; exact .head _)
    rw [eq] at path joinedOrdered
    obtain ⟨leftNamed, leftSize, _⟩ := path.member (show left ∈ init ++ [left] ++ joined :: rest by simp)
    have gap := (ordered_append.mp ord).2.2 left (by simp) block (.head _)
    simp only [getLast?_concat, map_some, Heap.coalescePrev, leftSize]
    rw [add64_eq (by simp only [Span.stop] at gap; omega)]
    by_cases touch : left.start + left.len = block.start
    · rw [if_pos touch, insertSpan_touch touch, extend left touch, ← start]
      rw [append_assoc, singleton_append] at path joinedOrdered
      refine path.absorb joinedOrdered ?_
      simp only [Span.stop] at joinedStop
      omega
    · rw [if_neg touch, insertSpan_apart touch, eq]
      exact path

theorem Ordered.length_le {spans : List Span} (ord : Ordered spans)
    (bounded : ∀ span ∈ spans, span.stop ≤ 2 ^ 64) : spans.length ≤ addressCount := by
  have increasing : (spans.map Span.start).Pairwise (· < ·) := by
    refine pairwise_map.mpr (ord.order.imp_of_mem fun {left right} member _ gap => ?_)
    have room := ord.room left member
    simp only [headerSize, Span.stop] at room gap
    omega
  have hin : (spans.map Span.start).toFinset ⊆ Finset.range addressCount := by
    intro start listed
    obtain ⟨span, member, rfl⟩ := mem_map.mp (mem_toFinset.mp listed)
    have room := ord.room span member
    have stop := bounded span member
    simp only [headerSize, Span.stop] at room stop
    rw [Finset.mem_range, addressCount]
    omega
  have count := Finset.card_le_card hin
  rwa [toFinset_card_of_nodup (increasing.imp fun less => Nat.ne_of_lt less), length_map,
    Finset.card_range] at count

theorem FreePath.insertAndCoalesce (path : FreePath heap.mem heap.freeList (before ++ after) 0)
    (ord : Ordered (before ++ block :: after)) (named : 0 < block.start)
    (size : blockSize heap.mem block.start = block.len)
    (bounded : ∀ span ∈ before ++ block :: after, span.stop ≤ 2 ^ 64) :
    ∃ mem freeList, heap.insertAndCoalesce block.start = some { heap with mem := mem, freeList := freeList } ∧
      FreePath mem freeList (insertSpan before block after) 0 ∧
      HeadersOnly heap.mem mem (block.start :: before.map Span.start) := by
  have self : block.start ∈ block.start :: before.map Span.start := .head _
  have room := ord.room block (by simp)
  have stop := bounded block (by simp)
  have lt : block.start < 2 ^ 64 := by
    simp only [headerSize, Span.stop] at room stop
    omega
  obtain ⟨low, high⟩ := ord.apart
  unfold Heap.insertAndCoalesce
  by_cases empty : heap.freeList = 0
  · have none_ : before ++ after = [] := by
      cases all : before ++ after with
      | nil => rfl
      | cons span rest =>
        rw [all] at path
        exact absurd (path.1.symm.trans empty) (by have := path.2.1; omega)
    obtain ⟨rfl, rfl⟩ := append_eq_nil_iff.mp none_
    rw [if_pos empty]
    refine ⟨_, _, rfl, ⟨rfl, named, ?_, ?_, ?_⟩, (headersOnly_setMagic self).trans (headersOnly_setNext self)⟩
    · rw [blockSize_setNext, blockSize_setMagic, size]
    · rw [blockMagic_setNext, blockMagic_setMagic (by decide)]
    · rw [blockNext_setNext (by decide)]
      rfl
  · rw [if_neg empty]
    have marked : FreePath (setMagic heap.mem block.start magicFree) heap.freeList (before ++ after) 0 := by
      refine path.frame fun span member => sameHeader_setMagic ?_
      rcases mem_append.mp member with member | member
      · exact .inl (low span member)
      · exact .inr (high span member)
    have chain := marked.chain
    rw [map_append] at chain
    have length : (before.map Span.start).length ≤ addressCount := by
      have := ord.length_le bounded
      rw [length_append] at this
      rw [length_map]
      omega
    have sought : seek (nextBlock (setMagic heap.mem block.start magicFree)) (fun cur => block.start ≤ cur)
        addressCount none (pointer heap.freeList) = some ((before.map Span.start).getLast?.or none,
          (after.map Span.start).head?) :=
      seek_eq none chain (fun start listed => by
        obtain ⟨span, member, rfl⟩ := mem_map.mp listed
        have := low span member
        simp only [headerSize] at this
        simp only [decide_eq_false_iff_not]
        omega)
      (fun start first => by
        obtain ⟨span, member, rfl⟩ := mem_map.mp (mem_of_mem_head? first)
        have := high span member
        simp only [decide_eq_true_eq]
        omega) length
    rw [getLast?_map, head?_map, or_none] at sought
    simp only [sought]
    -- The block leads on to `after` before any link leads to it.
    let linked : Heap := { heap with
      mem := setNext (setMagic heap.mem block.start magicFree) block.start ((after.head?.map Span.start).getD 0) }
    obtain ⟨mid, first, rest⟩ := freePath_append.mp marked
    have target : (after.head?.map Span.start).getD 0 < 2 ^ 64 := by
      cases after with
      | nil => decide
      | cons next later =>
        have nextRoom := ord.room next (by simp)
        have nextStop := bounded next (by simp)
        simp only [headerSize, Span.stop] at nextRoom nextStop
        change next.start < 2 ^ 64
        omega
    have firstLinked : FreePath linked.mem linked.freeList before mid :=
      first.frame fun span member => sameHeader_setNext (.inl (low span member))
    have restLinked : FreePath linked.mem block.start (block :: after) 0 := by
      refine ⟨rfl, named, ?_, ?_, ?_⟩
      · rw [blockSize_setNext, blockSize_setMagic, size]
      · rw [blockMagic_setNext, blockMagic_setMagic (by decide)]
      · rw [blockNext_setNext target, ← rest.head_eq]
        exact rest.frame fun span member => sameHeader_setNext (.inr (high span member))
    have later : ∀ span ∈ block :: after, span.stop ≤ 2 ^ 64 := fun span member =>
      bounded span (mem_append_right _ member)
    have ins := (firstLinked.relink restLinked ord lt).coalesceNext ord later
    have joined := ins.coalescePrev ord lt later
    have nearest : ∀ prev, before.getLast?.map Span.start = some prev →
        prev ∈ block.start :: before.map Span.start := by
      intro prev isLast
      obtain ⟨span, last, rfl⟩ := map_eq_some_iff.mp isLast
      exact .tail _ (mem_map_of_mem (mem_of_getLast? last))
    refine ⟨_, _, ?_, joined, ?_⟩
    · rw [Heap.coalescePrev_eq, Heap.coalesceNext_eq, Heap.relink_eq]
    · exact ((headersOnly_setMagic self).trans (headersOnly_setNext self)).trans
        ((headersOnly_relink _ nearest).trans
          ((headersOnly_coalesceNext self).trans (headersOnly_coalescePrev _ nearest)))

end

/-! ## Searching for and taking a block -/

section

variable {heap : Heap} {before after free : List Span} {span : Span} {total : Nat}

theorem FreePath.search (path : FreePath heap.mem heap.freeList free 0) (ord : Ordered free)
    (bounded : ∀ span ∈ free, span.stop ≤ 2 ^ 64) (refuse : Nat → Bool) (total : Nat) :
    (∃ prev, heap.search refuse total = some (prev, none)) ∨
    ∃ before span after, free = before ++ span :: after ∧
      heap.search refuse total = some (before.getLast?.map Span.start, some span.start) ∧
      (refuse span.start = true ∨ total ≤ span.len) := by
  have length := ord.length_le bounded
  have sizes : ∀ span ∈ free, blockSize heap.mem span.start = span.len := fun span member => (path.member member).2.1
  have chain := path.chain
  unfold Heap.search
  cases hf : free.find? fun span => refuse span.start || total ≤ blockSize heap.mem span.start with
  | none =>
    rw [find?_eq_none] at hf
    rw [← append_nil (free.map Span.start)] at chain
    left
    refine ⟨_, seek_eq none chain (fun start listed => ?_) (fun _ first => nomatch first) (by rwa [length_map])⟩
    obtain ⟨span, member, rfl⟩ := mem_map.mp listed
    exact Bool.eq_false_iff.mpr (hf span member)
  | some span =>
    obtain ⟨stops, before, after, rfl, passed⟩ := find?_eq_some_iff_append.mp hf
    rw [length_append] at length
    rw [map_append] at chain
    right
    refine ⟨before, span, after, rfl, ?_, ?_⟩
    · rw [seek_eq none chain (fun start listed => ?_) (fun start first => ?_) (by rw [length_map]; omega),
        getLast?_map, or_none, head?_map, head?_cons, map_some]
      · grind
      · grind
    · rw [sizes span (by simp)] at stops
      simpa using stops

/-- The last writes of both ways to take a block: its size stands, it carries the
allocation mark, and the canary fills its last bytes. -/
theorem markAllocated_spec {mem : Bytes} {cur taken : Nat} (size : blockSize mem cur = taken)
    (room : headerSize + tailCanaryBytes ≤ taken) (bounded : cur + taken ≤ 2 ^ 64) :
    ∃ mem', markAllocated mem cur = mem' ∧ blockSize mem' cur = taken ∧ blockMagic mem' cur = magicAlloc ∧
      canaryAddr mem' cur = cur + taken - tailCanaryBytes ∧
      load mem' (cur + taken - tailCanaryBytes) tailCanaryBytes = kmallocCanary ∧
      ∀ pos, pos < cur ∨ cur + taken ≤ pos → mem' pos = mem pos := by
  simp only [headerSize, tailCanaryBytes] at room
  have named : blockSize (setNext (setMagic mem cur magicAlloc) cur 0) cur = taken := by
    rw [blockSize_setNext, blockSize_setMagic, size]
  have place : ∀ other : Bytes, blockSize other cur = taken → canaryAddr other cur = cur + taken - tailCanaryBytes := by
    intro other size
    simp only [canaryAddr, size, headerSize, tailCanaryBytes, add64, sub64]
    omega
  have enough : tailCanaryBytes ≤ sub64 taken headerSize := by
    simp only [tailCanaryBytes, headerSize, sub64]
    omega
  rw [markAllocated, writeCanary, named, if_pos enough, place _ named]
  have eq : SameHeader (setNext (setMagic mem cur magicAlloc) cur 0) (store (setNext (setMagic mem cur magicAlloc)
      cur 0) (cur + taken - tailCanaryBytes) tailCanaryBytes kmallocCanary) cur := by
    apply sameBytes_store
    simp only [headerSize, tailCanaryBytes]
    omega
  refine ⟨_, rfl, eq.size.trans named, ?_, place _ (eq.size.trans named), ?_, fun pos out => ?_⟩
  · rw [eq.magic, blockMagic_setNext, blockMagic_setMagic (by decide)]
  · rw [load_store]
    decide
  · rw [store_outside (by simp only [tailCanaryBytes]; omega), setNext, store_outside (by omega), setMagic,
      store_outside (by omega)]

theorem HeadersOnly.sameBytes {mem other : Bytes} {starts : List Nat} {addr width : Nat}
    (only : HeadersOnly mem other starts)
    (ne : ∀ start ∈ starts, addr + width ≤ start ∨ start + headerSize ≤ addr) : SameBytes mem other addr width :=
  fun pos low high => only pos fun start member => by
    have := ne start member
    omega

theorem Ordered.dropFront {count : Nat} (ord : Ordered (before ++ span :: after))
    (left : span.len = count ∨ count + headerSize ≤ span.len) :
    Ordered (before ++ (Library.dropFront span count ++ after)) := by
  obtain ⟨first, snd, across⟩ := ordered_append.mp ord
  obtain ⟨gap, order⟩ := pairwise_cons.mp snd.order
  have rest : Ordered after := ⟨fun other member => snd.room other (.tail _ member), order⟩
  have across' := fun low lowMember => forall_mem_cons.mp (across low lowMember)
  rcases left with whole | cut
  · rw [Library.dropFront, if_pos whole, nil_append]
    exact ordered_append.mpr ⟨first, rest, fun low lowMember => (across' low lowMember).2⟩
  · rw [Library.dropFront, if_neg (by simp only [headerSize] at cut; omega), singleton_append]
    refine ordered_append.mpr ⟨first, ⟨forall_mem_cons.mpr ⟨by simp only; omega, rest.room⟩,
      pairwise_cons.mpr ⟨fun right member => ?_, order⟩⟩, fun low lowMember => ?_⟩
    · have := gap right member
      simp only [Span.stop, headerSize] at cut this ⊢
      omega
    · refine forall_mem_cons.mpr ⟨?_, (across' low lowMember).2⟩
      have := (across' low lowMember).1
      simp only
      omega

/-- Taking `taken` bytes of the block `span` leaves the rest of it on the list. -/
structure Takes (heap : Heap) (before after : List Span) (span : Span) (taken : Nat) (mem : Bytes) (freeList : Nat) :
    Prop where
  path : FreePath mem freeList (before ++ (dropFront span taken ++ after)) 0
  size : blockSize mem span.start = taken
  magic : blockMagic mem span.start = magicAlloc
  place : canaryAddr mem span.start = span.start + taken - tailCanaryBytes
  canary : load mem (span.start + taken - tailCanaryBytes) tailCanaryBytes = kmallocCanary
  frame : ∀ pos, pos < span.start ∨ span.stop ≤ pos →
    (∀ left ∈ before, pos < left.start ∨ left.start + headerSize ≤ pos) → mem pos = heap.mem pos

section

variable {taken : Nat}

theorem sameHeader_of_frame {mem other : Bytes} (written : Span) {start : Nat}
    (frame : ∀ pos, pos < written.start ∨ written.stop ≤ pos → other pos = mem pos)
    (ne : start + headerSize ≤ written.start ∨ written.stop ≤ start) : SameHeader mem other start :=
  fun pos first last => frame pos (by omega)

theorem Ordered.outside (ord : Ordered (before ++ span :: after)) :
    (∀ left ∈ before, left.start + headerSize ≤ span.start) ∧ ∀ right ∈ after, span.stop ≤ right.start :=
  ⟨ord.apart.1, (pairwise_cons.mp (ordered_append.mp ord).2.1.order).1⟩

theorem nearest_mem {prev : Nat} (isLast : before.getLast?.map Span.start = some prev) :
    prev ∈ before.map Span.start := by
  obtain ⟨left, last, rfl⟩ := map_eq_some_iff.mp isLast
  exact mem_map_of_mem (mem_of_getLast? last)

theorem headersOnly_relink_last (heap : Heap) (before : List Span) (target : Nat) :
    HeadersOnly heap.mem (heap.relink (before.getLast?.map Span.start) target).mem (before.map Span.start) :=
  headersOnly_relink target fun _ isLast => nearest_mem isLast

section

variable (path : FreePath heap.mem heap.freeList (before ++ span :: after) 0) (ord : Ordered (before ++ span :: after))
  (stop : span.stop ≤ 2 ^ 64)
include path ord stop

theorem FreePath.takeWhole (room : headerSize + tailCanaryBytes ≤ span.len) : Takes heap before after span span.len
      (markAllocated (heap.relink (before.getLast?.map Span.start) (blockNext heap.mem span.start)).mem span.start)
      (heap.relink (before.getLast?.map Span.start) (blockNext heap.mem span.start)).freeList := by
  obtain ⟨low, high⟩ := ord.outside
  obtain ⟨mid, beforePath, _, _, size, _, afterPath⟩ := freePath_append.mp path
  have shorter : Ordered (before ++ after) := by
    have := ord.dropFront (.inl rfl)
    rwa [dropFront, if_pos rfl, nil_append] at this
  have linked := beforePath.relink afterPath shorter (blockNext_lt _ _)
  have only := headersOnly_relink_last heap before (blockNext heap.mem span.start)
  have linkedSize : blockSize (heap.relink (before.getLast?.map Span.start)
      (blockNext heap.mem span.start)).mem span.start = span.len := by
    refine (SameHeader.size (only.sameBytes fun start member => ?_)).trans size
    obtain ⟨left, listed, rfl⟩ := mem_map.mp member
    exact .inr (low left listed)
  obtain ⟨mem, eq, size', magic, place, canary, frame⟩ := markAllocated_spec linkedSize room stop
  rw [eq]
  refine ⟨?_, size', magic, place, canary, fun pos out others => ?_⟩
  · rw [dropFront, if_pos rfl, nil_append]
    refine linked.frame fun other member => sameHeader_of_frame span frame ?_
    rcases mem_append.mp member with member | member
    · exact .inl (low other member)
    · exact .inr (high other member)
  · rw [frame pos out]
    exact only pos (forall_mem_map.mpr others)

theorem FreePath.takeFront (room : headerSize + tailCanaryBytes ≤ total) (cut : total + headerSize + heapAlign ≤ span.len) :
    ∃ mem, splitBlock heap.mem span.start total = mem ∧ Takes heap before after span total
      (Heap.relink { heap with mem := mem } (before.getLast?.map Span.start) (span.start + total)).mem
      (Heap.relink { heap with mem := mem } (before.getLast?.map Span.start) (span.start + total)).freeList := by
  obtain ⟨low, high⟩ := ord.outside
  obtain ⟨mid, beforePath, _, named, size, _, afterPath⟩ := freePath_append.mp path
  simp only [headerSize, tailCanaryBytes, heapAlign, Span.stop] at room cut stop
  have sum : add64 span.start total = span.start + total := add64_eq (by omega)
  simp only [splitBlock, sum, size, sub64_eq (show total ≤ span.len by omega) (show span.len < 2 ^ 64 by omega)]
  have follow : blockNext (setMagic (setSize heap.mem (span.start + total) (span.len - total)) (span.start + total)
      magicFree) span.start = blockNext heap.mem span.start := by
    have ne : span.start + headerSize ≤ span.start + total := by simp only [headerSize]; omega
    exact SameHeader.next ((sameHeader_setSize (.inl ne)).trans (sameHeader_setMagic (.inl ne)))
  rw [follow]
  obtain ⟨behind, behindSame, behindSize, behindMagic, behindNext, behindFrame⟩ := freeHeader heap.mem
    (span.start + total) (show span.len - total < 2 ^ 64 by omega) (blockNext_lt heap.mem span.start)
  obtain ⟨mem, eq, size', magic, place, canary, frame⟩ := markAllocated_spec
    (blockSize_setSize (show total < 2 ^ 64 by omega) : blockSize (setSize behind span.start total) span.start = total)
    (by simp only [headerSize, tailCanaryBytes]; omega) (by omega)
  have written : ∀ pos, pos < span.start ∨ span.start + total ≤ pos → mem pos = behind pos := fun pos out => by
    rw [frame pos out, setSize, store_outside (by omega)]
  have outer : ∀ pos, pos < span.start ∨ span.stop ≤ pos → mem pos = heap.mem pos := fun pos out => by
    simp only [Span.stop] at out
    rw [written pos (by omega), behindFrame pos (by simp only [headerSize]; omega)]
  have header : SameHeader behind mem (span.start + total) := fun pos first _ => written pos (.inr first)
  refine ⟨mem, by rw [behindSame, eq], ?_⟩
  have rest : dropFront span total = [⟨span.start + total, span.len - total⟩] := if_neg (by omega)
  have shorter := ord.dropFront (.inr (show total + headerSize ≤ span.len by simp only [headerSize]; omega))
  rw [rest] at shorter
  let cutHeap : Heap := { heap with mem := mem }
  have beforeCut : FreePath cutHeap.mem cutHeap.freeList before mid :=
    beforePath.frame fun left member => sameHeader_of_frame span outer (.inl (low left member))
  have afterCut : FreePath cutHeap.mem (span.start + total) (⟨span.start + total, span.len - total⟩ :: after) 0 := by
    refine ⟨rfl, Nat.add_pos_left named _, header.size.trans behindSize, header.magic.trans behindMagic, ?_⟩
    rw [header.next, behindNext]
    exact afterPath.frame fun right member => sameHeader_of_frame span outer (.inr (high right member))
  have linked := beforeCut.relink afterCut shorter (by omega)
  have only := headersOnly_relink_last { heap with mem := mem } before (span.start + total)
  have kept : ∀ addr width, span.start ≤ addr → SameBytes mem
      (Heap.relink { heap with mem := mem } (before.getLast?.map Span.start) (span.start + total)).mem addr width := by
    intro addr width after
    refine only.sameBytes fun start member => .inr ?_
    obtain ⟨left, listed, rfl⟩ := mem_map.mp member
    exact Nat.le_trans (low left listed) after
  have keptHeader := kept span.start headerSize (Nat.le_refl _)
  refine ⟨rest ▸ linked, (SameHeader.size keptHeader).trans size', (SameHeader.magic keptHeader).trans magic, ?_, ?_,
    fun pos out others => ?_⟩
  · rw [← place, canaryAddr, canaryAddr, SameHeader.size keptHeader]
  · rw [← canary]
    exact load_congr (kept _ _ (by simp only [tailCanaryBytes]; omega))
  · exact (only pos (forall_mem_map.mpr others)).trans (outer pos out)

end

end

theorem FreePath.takeBlock (path : FreePath heap.mem heap.freeList (before ++ span :: after) 0)
    (ord : Ordered (before ++ span :: after)) (stop : span.stop ≤ 2 ^ 64) (above : pageSize ≤ span.start)
    (room : headerSize + tailCanaryBytes ≤ total) (fits : total ≤ span.len) :
    ∃ taken mem freeList, (taken = total ∧ total + headerSize + heapAlign ≤ span.len ∨ taken = span.len) ∧
      heap.takeBlock (before.getLast?.map Span.start) span.start total =
        { heap with mem := mem, freeList := freeList } ∧
      Takes heap before after span taken mem freeList := by
  obtain ⟨_, size, _⟩ := path.member (show span ∈ before ++ span :: after by simp)
  have wide : add64 (add64 total headerSize) heapAlign = total + headerSize + heapAlign := by
    simp only [Span.stop, pageSize] at stop above
    simp only [add64, headerSize, heapAlign]
    omega
  unfold Heap.takeBlock
  rw [size, wide]
  by_cases cut : total + headerSize + heapAlign ≤ span.len
  · obtain ⟨mem, eq, takes⟩ := path.takeFront ord stop room cut
    have sum : add64 span.start total = span.start + total := by
      simp only [Span.stop, headerSize] at stop cut
      exact add64_eq (by omega)
    rw [if_pos cut, eq, sum, Heap.relink_eq]
    exact ⟨total, _, _, .inl ⟨rfl, cut⟩, rfl, takes⟩
  · rw [if_neg cut, Heap.relink_eq]
    exact ⟨span.len, _, _, .inr rfl, rfl, path.takeWhole ord stop (Nat.le_trans room fits)⟩

end

end RosKernel.Memory
