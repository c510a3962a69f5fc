import Mathlib.Data.List.TakeWhile
import RosKernel.Memory.RequestSizes

/-! What the heap takes from the page allocators when it grows, and what it keeps. -/

set_option autoImplicit false

namespace RosKernel.Memory

open Library List

/-- The answers of one call: the virtual range, and for each round of the loop the frame that
`PhysicalAllocPages` returns (zero for none) and whether `MapPages` maps it. -/
structure PageAnswers where
  base : Nat
  phys : Nat → Nat
  mapOk : Nat → Bool

/-- What the heap sees of these answers. -/
def PageAnswers.outcome (answers : PageAnswers) : GrowOutcome :=
  ⟨answers.base, fun i => answers.phys i ≠ 0, answers.mapOk⟩

/-- What passes between the heap and the page allocators. -/
inductive PageEvent where
  | virtualAlloc (addr count : Nat)
  | virtualFree (addr count : Nat)
  | physicalAlloc (phys : Nat)
  | physicalFree (phys : Nat)
  | mapped (phys virt : Nat)
  | mapFailed (phys virt : Nat)

namespace Heap

/-- The loop of `grow_ok` from round `i` on. -/
def mapRounds (answers : PageAnswers) : Nat → Nat → List PageEvent
  | 0, _ => []
  | left + 1, i =>
    if answers.phys i = 0 then []
    else if answers.mapOk i then
      .physicalAlloc (answers.phys i) :: .mapped (answers.phys i) (answers.base + i * pageSize) ::
        mapRounds answers left (i + 1)
    else [.physicalAlloc (answers.phys i), .mapFailed (answers.phys i) (answers.base + i * pageSize)]

def growEvents (total : Nat) (answers : PageAnswers) : List PageEvent :=
  if answers.base = 0 then []
  else .virtualAlloc answers.base (growPages total) :: mapRounds answers (growPages total) 0

/-- The request is a proper one and the first search comes to the end of the list, so that the heap is to grow. -/
def Attempts (heap : Heap) (size : Nat) : Prop :=
  size ≠ 0 ∧ size ≤ 2 ^ 64 - 1 - tailCanaryBytes ∧
    ∃ prev, heap.search (fun cur => heap.boundsUnset || heap.suspicious cur) (totalSize size) = some (prev, none)

/-- The events of a call of `Alloc`, which meets the page allocators only in `grow_ok`. -/
def allocEvents (heap : Heap) (size : Nat) (answers : PageAnswers) : List PageEvent :=
  if size = 0 then []
  else if 2 ^ 64 - 1 - tailCanaryBytes < size then []
  else
    match heap.search (fun cur => heap.boundsUnset || heap.suspicious cur) (totalSize size) with
    | some (_, none) => growEvents (totalSize size) answers
    | _ => []

/-- The page is one that the call has mapped into a region of the heap. -/
def Owns (heap : Heap) (events : List PageEvent) (phys virt : Nat) : Prop :=
  .mapped phys virt ∈ events ∧ ∃ region ∈ heap.regions, region.start ≤ virt ∧ virt + pageSize ≤ region.start + region.len

/-- Every virtual page and every frame that has been taken is the heap's, or has been given back. -/
structure LeaksNothing (heap : Heap) (events : List PageEvent) : Prop where
  pages : ∀ addr count, .virtualAlloc addr count ∈ events → ∀ i < count,
    (∃ phys, heap.Owns events phys (addr + i * pageSize)) ∨
    ∃ freed pages, .virtualFree freed pages ∈ events ∧ freed ≤ addr + i * pageSize ∧ addr + i * pageSize < freed + pages * pageSize
  frames : ∀ phys, .physicalAlloc phys ∈ events → (∃ virt, heap.Owns events phys virt) ∨ .physicalFree phys ∈ events

end Heap

section

variable {answers : PageAnswers} {left i : Nat}

theorem mapped_mapRounds {phys virt : Nat} (mapped : .mapped phys virt ∈ Heap.mapRounds answers left i) :
    ∃ j, i ≤ j ∧ j < i + left ∧ virt = answers.base + j * pageSize ∧ answers.phys j ≠ 0 ∧ answers.mapOk j = true := by
  induction left generalizing i with
  | zero => exact nomatch mapped
  | succ left ih =>
    unfold Heap.mapRounds at mapped
    split at mapped
    · exact nomatch mapped
    split at mapped
    case isTrue hf maps =>
      rcases mem_cons.mp mapped with frame | mapped
      · exact nomatch frame
      rcases mem_cons.mp mapped with h | later
      · grind
      · grind
    case isFalse => simp at mapped

theorem mapRounds_takes {event : PageEvent} (mem : event ∈ Heap.mapRounds answers left i) :
    (∃ phys, event = .physicalAlloc phys) ∨ (∃ phys virt, event = .mapped phys virt) ∨ ∃ phys virt, event = .mapFailed phys virt := by
  induction left generalizing i with
  | zero => exact nomatch mem
  | succ left ih =>
    unfold Heap.mapRounds at mem
    split at mem
    · exact nomatch mem
    split at mem
    · rcases mem_cons.mp mem with rfl | mem
      · exact .inl ⟨_, rfl⟩
      rcases mem_cons.mp mem with rfl | mem
      · exact .inr (.inl ⟨_, _, rfl⟩)
      · exact ih mem
    · rcases mem_cons.mp mem with rfl | mem
      · exact .inl ⟨_, rfl⟩
      · exact .inr (.inr ⟨_, _, mem_singleton.mp mem⟩)

theorem mapRounds_whole (whole : ∀ j, i ≤ j → j < i + left → answers.phys j ≠ 0 ∧ answers.mapOk j = true) :
    (∀ j, i ≤ j → j < i + left → .mapped (answers.phys j) (answers.base + j * pageSize) ∈ Heap.mapRounds answers left i) ∧
    ∀ phys, .physicalAlloc phys ∈ Heap.mapRounds answers left i → ∃ j, i ≤ j ∧ j < i + left ∧ phys = answers.phys j := by
  induction left generalizing i with
  | zero => exact ⟨fun j after pre => by omega, fun _ none => nomatch none⟩
  | succ left ih =>
    obtain ⟨maps, frames⟩ := @ih (i + 1) fun j after pre => whole j (by omega) (by omega)
    obtain ⟨hf, ok⟩ := whole i (Nat.le_refl _) (by omega)
    have rounds : Heap.mapRounds answers (left + 1) i = .physicalAlloc (answers.phys i) ::
        .mapped (answers.phys i) (answers.base + i * pageSize) :: Heap.mapRounds answers left (i + 1) := by
      rw [Heap.mapRounds, if_neg hf, if_pos ok]
    rw [rounds]
    constructor
    · intro j after pre
      by_cases h : j = i
      · grind
      · grind
    · intro phys mem
      rcases mem_cons.mp mem with h | mem
      · grind
      rcases mem_cons.mp mem with other | later
      · exact nomatch other
      · grind

end

section

variable {heap after : Heap} {size total ptr : Nat} {answers : PageAnswers}

theorem growPages_bounds (total : Nat) : 0 < Heap.growPages total ∧ Heap.growPages total * pageSize < 2 ^ 64 := by
  have word : sub64 (add64 total pageSize) 1 < 2 ^ 64 := Nat.mod_lt _ (by decide)
  unfold Heap.growPages
  simp only [pageSize] at word ⊢
  omega

theorem countMapped_whole {pages : Nat} (whole : ∀ i < pages, answers.phys i ≠ 0 ∧ answers.mapOk i = true) :
    Heap.countMapped answers.outcome pages = pages := by
  unfold Heap.countMapped PageAnswers.outcome
  rw [takeWhile_eq_self_iff.mpr, length_range]
  intro i mem
  obtain ⟨hf, maps⟩ := whole i (mem_range.mp mem)
  simp [hf, maps]

@[simp] theorem Heap.regions_relink (heap : Heap) (prev : Option Nat) (target : Nat) :
    (heap.relink prev target).regions = heap.regions := by
  cases prev <;> rfl

theorem Heap.regions_takeBlock (heap : Heap) (prev : Option Nat) (cur total : Nat) :
    (heap.takeBlock prev cur total).regions = heap.regions := by
  unfold Heap.takeBlock
  split
  · simp
  · exact Heap.regions_relink heap prev (blockNext heap.mem cur)

theorem Heap.regions_retry (retried : heap.retry total = some (ptr, after)) : after.regions = heap.regions := by
  unfold Heap.retry at retried
  split at retried
  · exact nomatch retried
  · grind
  · split at retried
    · grind
    · obtain ⟨_, rfl⟩ := Prod.mk.inj (Option.some.inj retried)
      exact heap.regions_takeBlock _ _ _

theorem Heap.alloc_attempts (attempts : heap.Attempts size) (answers : PageAnswers) :
    heap.allocEvents size answers = Heap.growEvents (Heap.totalSize size) answers ∧
      heap.alloc size answers.outcome = match heap.grow (Heap.totalSize size) answers.outcome with
        | none => none
        | some (heap, false) => some (0, heap)
        | some (heap, true) => heap.retry (Heap.totalSize size) := by
  obtain ⟨pos, lt, prev, searched⟩ := attempts
  unfold Heap.allocEvents Heap.alloc
  rw [if_neg pos, if_neg (Nat.not_lt_of_le lt), if_neg pos, if_neg (Nat.not_lt_of_le lt)]
  dsimp only
  rw [searched]
  exact ⟨rfl, rfl⟩

theorem Heap.allocEvents_of_not (never : ¬heap.Attempts size) (answers : PageAnswers) : heap.allocEvents size answers = [] := by
  unfold Heap.allocEvents
  by_cases zero : size = 0
  · exact if_pos zero
  by_cases large : 2 ^ 64 - 1 - tailCanaryBytes < size
  · rw [if_neg zero, if_pos large]
  rw [if_neg zero, if_neg large]
  split
  case h_1 prev searched => exact absurd ⟨zero, Nat.le_of_not_lt large, prev, searched⟩ never
  case h_2 => rfl

theorem Heap.regions_grown (attempts : heap.Attempts size) (named : answers.base ≠ 0)
    (whole : ∀ i < Heap.growPages (Heap.totalSize size), answers.phys i ≠ 0 ∧ answers.mapOk i = true)
    (done : heap.alloc size answers.outcome = some (ptr, after)) :
    ⟨answers.base, Heap.growPages (Heap.totalSize size) * pageSize⟩ ∈ after.regions := by
  obtain ⟨pos, fits⟩ := growPages_bounds (Heap.totalSize size)
  rw [(Heap.alloc_attempts attempts answers).2] at done
  have grows : ∀ res, heap.grow (Heap.totalSize size) answers.outcome = some res →
      res.2 = true ∧ ⟨answers.base, Heap.growPages (Heap.totalSize size) * pageSize⟩ ∈ res.1.regions := by
    intro res grew
    have isNamed : answers.outcome.base ≠ 0 := named
    unfold Heap.grow at grew
    rw [if_neg isNamed] at grew
    dsimp only at grew
    rw [countMapped_whole whole, if_neg (Nat.ne_of_gt pos), mul64_eq fits] at grew
    split at grew
    · exact nomatch grew
    · cases grew
      exact ⟨rfl, .head _⟩
  cases res : heap.grow (Heap.totalSize size) answers.outcome with
  | none =>
    rw [res] at done
    exact nomatch done
  | some grown =>
    obtain ⟨grown, flag⟩ := grown
    obtain ⟨rfl, mem⟩ := grows _ res
    rw [res] at done
    rw [Heap.regions_retry done]
    exact mem

/-- A call of `Alloc` leaks nothing exactly if it does not come to grow the heap, finds no virtual
range for it, or finds and maps a frame for each page of the range. -/
theorem alloc_leaksNothing_iff (done : heap.alloc size answers.outcome = some (ptr, after)) :
    after.LeaksNothing (heap.allocEvents size answers) ↔ ¬heap.Attempts size ∨ answers.base = 0 ∨
      ∀ i < Heap.growPages (Heap.totalSize size), answers.phys i ≠ 0 ∧ answers.mapOk i = true := by
  have quiet : after.LeaksNothing [] := ⟨fun _ _ none => (nomatch none), fun _ none => nomatch none⟩
  by_cases attempts : heap.Attempts size
  · obtain ⟨events, _⟩ := Heap.alloc_attempts attempts answers
    rw [events]
    by_cases named : answers.base = 0
    · have none : Heap.growEvents (Heap.totalSize size) answers = [] := if_pos named
      rw [none]
      exact iff_of_true quiet (.inr (.inl named))
    have ht : Heap.growEvents (Heap.totalSize size) answers =
        .virtualAlloc answers.base (Heap.growPages (Heap.totalSize size)) ::
          Heap.mapRounds answers (Heap.growPages (Heap.totalSize size)) 0 := if_neg named
    rw [ht]
    constructor
    · intro kept
      refine .inr (.inr fun i lt => ?_)
      rcases kept.pages answers.base _ mem_cons_self i lt with ⟨phys, mapped, _⟩ | ⟨freed, pages, given, _⟩
      · obtain ⟨j, _, _, eq, facts⟩ := mapped_mapRounds ((mem_cons.mp mapped).resolve_left fun eq => nomatch eq)
        have h : i = j := Nat.eq_of_mul_eq_mul_right (show 0 < pageSize by decide) (Nat.add_left_cancel eq)
        exact h ▸ facts
      · rcases mapRounds_takes ((mem_cons.mp given).resolve_left fun eq => nomatch eq) with
          ⟨_, eq⟩ | ⟨_, _, eq⟩ | ⟨_, _, eq⟩ <;> exact nomatch eq
    · intro either
      have whole := (either.resolve_left fun never => never attempts).resolve_left named
      have region := Heap.regions_grown attempts named whole done
      obtain ⟨maps, frames⟩ := @mapRounds_whole answers (Heap.growPages (Heap.totalSize size)) 0 fun j _ pre => whole j (by omega)
      have owns : ∀ i < Heap.growPages (Heap.totalSize size), after.Owns
          (.virtualAlloc answers.base (Heap.growPages (Heap.totalSize size)) ::
            Heap.mapRounds answers (Heap.growPages (Heap.totalSize size)) 0) (answers.phys i) (answers.base + i * pageSize) := by
        intro i lt
        refine ⟨mem_cons_of_mem _ (maps i (Nat.zero_le _) (by omega)), _, region, Nat.le_add_right .., ?_⟩
        have hin : (i + 1) * pageSize ≤ Heap.growPages (Heap.totalSize size) * pageSize := Nat.mul_le_mul_right _ lt
        rw [Nat.add_mul, Nat.one_mul] at hin
        dsimp only
        omega
      refine ⟨fun addr count mem i lt => .inl ?_, fun phys mem => .inl ?_⟩
      · rcases mem_cons.mp mem with eq | other
        · grind
        · rcases mapRounds_takes other with ⟨_, eq⟩ | ⟨_, _, eq⟩ | ⟨_, _, eq⟩ <;> exact nomatch eq
      · grind
  · rw [Heap.allocEvents_of_not attempts]
    exact iff_of_true quiet (.inl attempts)

/-- A heap without a free block. -/
def fullHeap : Heap := { Heap.init (fun _ => 0) 0 0xFFFFFFFF80400000 with freeList := 0 }

theorem fullHeap_attempts : fullHeap.Attempts 100 := ⟨by decide, by decide, none, Heap.search_empty rfl⟩

/-- Without a virtual range the request fails, and nothing has been taken. -/
theorem fullHeap_leaksNothing : fullHeap.LeaksNothing (fullHeap.allocEvents 100 ⟨0, fun _ => 0, fun _ => false⟩) ↔
    ¬fullHeap.Attempts 100 ∨ 0 = 0 ∨ ∀ i < Heap.growPages (Heap.totalSize 100), (0 : Nat) ≠ 0 ∧ false = true := by
  have done : fullHeap.alloc 100 (PageAnswers.mk 0 (fun _ => 0) fun _ => false).outcome = some (0, fullHeap) := by
    rw [(Heap.alloc_attempts fullHeap_attempts _).2]
    rfl
  exact alloc_leaksNothing_iff done

/-- The first frame cannot be mapped: the frame and sixteen virtual pages are lost. -/
theorem unmapped_growth_leaks : ∃ ptr after,
    fullHeap.alloc 100 (PageAnswers.mk 0xFFFFFFFF80500000 (fun _ => 0x200000) fun _ => false).outcome = some (ptr, after) ∧
      ¬after.LeaksNothing (fullHeap.allocEvents 100 ⟨0xFFFFFFFF80500000, fun _ => 0x200000, fun _ => false⟩) := by
  have attempted := Heap.alloc_attempts fullHeap_attempts ⟨0xFFFFFFFF80500000, fun _ => 0x200000, fun _ => false⟩
  refine ⟨0, fullHeap, ?_, fun kept => ?_⟩
  · rw [attempted.2]
    rfl
  · rw [attempted.1] at kept
    rcases kept.frames 0x200000 (mem_cons_of_mem _ mem_cons_self) with ⟨virt, mapped, _⟩ | freed
    · obtain ⟨_, _, _, _, _, fails⟩ := mapped_mapRounds ((mem_cons.mp mapped).resolve_left fun eq => nomatch eq)
      exact nomatch fails
    · rcases mapRounds_takes ((mem_cons.mp freed).resolve_left fun eq => nomatch eq) with
        ⟨_, eq⟩ | ⟨_, _, eq⟩ | ⟨_, _, eq⟩ <;> exact nomatch eq

end

end RosKernel.Memory
