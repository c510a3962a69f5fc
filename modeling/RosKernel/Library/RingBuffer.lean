import Mathlib.Data.List.Range
import Mathlib.Data.Nat.ModEq


/-! A ring of cells between a read index and a write index.

Equal indices mean that nothing is unread, so a ring of `size` cells holds at
most `size - 1` items; one more overwrites the oldest.
-/

set_option autoImplicit false

namespace RosKernel.Library

open List

section

variable {α : Type} {cells other : Nat → α} {size start count : Nat}

/-- The cells from a start on, around the end of the ring. -/
def window (cells : Nat → α) (size start count : Nat) : List α := (range count).map fun k => cells ((start + k) % size)

theorem window_append (more : Nat) :
    window cells size start (count + more) = window cells size start count ++ window cells size (start + count) more := by
  unfold window
  rw [range_add, map_append, map_map]
  congr 1
  apply map_congr_left
  intro k _
  simp only [Function.comp, Nat.add_assoc]

theorem window_mod : window cells size (start % size) count = window cells size start count := by
  unfold window
  simp only [Nat.mod_add_mod]

theorem window_straight (hin : start + count ≤ size) :
    window cells size start count = (range count).map fun k => cells (start + k) := by
  apply map_congr_left
  intro k low
  rw [Nat.mod_eq_of_lt (by have := mem_range.mp low; omega)]

theorem window_congr (eq : ∀ k < count, other ((start + k) % size) = cells ((start + k) % size)) :
    window other size start count = window cells size start count :=
  map_congr_left fun k low => eq k (mem_range.mp low)

theorem window_apart {k j : Nat} (low : k < count) (high : count + j < size) :
    (start + k) % size ≠ (start + (count + j)) % size := by
  intro eq
  have equal := Nat.ModEq.add_left_cancel' start eq
  rw [Nat.ModEq, Nat.mod_eq_of_lt (by omega), Nat.mod_eq_of_lt high] at equal
  omega

end

structure RingBuffer (α : Type) where
  cells : Nat → α
  size : Nat
  write : Nat
  read : Nat

namespace RingBuffer

variable {α : Type}

/-- Both indices are inside the ring. -/
structure Valid (ring : RingBuffer α) : Prop where
  write_lt : ring.write < ring.size
  read_lt : ring.read < ring.size

section

variable (ring : RingBuffer α)
include ring

def used : Nat :=
  if ring.read ≤ ring.write then ring.write - ring.read else ring.size - (ring.read - ring.write)

/-- The items between the read index and the write index, oldest first. -/
def unread : List α :=
  (range ring.used).map fun k => ring.cells ((ring.read + k) % ring.size)

/-- One item in; the read index gives way when the write index reaches it. -/
def put (item : α) : RingBuffer α :=
  let written := { ring with
    cells := Function.update ring.cells ring.write item
    write := (ring.write + 1) % ring.size }
  if written.write = written.read then { written with read := (written.read + 1) % ring.size } else written

def putAll (items : List α) : RingBuffer α := items.foldl put ring

end

/-- At most `count` items out. -/
def take : Nat → RingBuffer α → List α × RingBuffer α
  | 0, ring => ([], ring)
  | count + 1, ring =>
    if ring.read = ring.write then ([], ring)
    else
      let rest := take count { ring with read := (ring.read + 1) % ring.size }
      (ring.cells ring.read :: rest.1, rest.2)

@[simp] theorem length_unread (ring : RingBuffer α) : ring.unread.length = ring.used := by
  simp [unread]

theorem wrapped {index size : Nat} (lt : index < 2 * size) :
    index % size = if index < size then index else index - size := by
  by_cases hin : index < size
  · rw [if_pos hin, Nat.mod_eq_of_lt hin]
  · rw [if_neg hin, Nat.mod_eq_sub_mod (by omega), Nat.mod_eq_of_lt (by omega)]

theorem Valid.used_lt {ring : RingBuffer α} (valid : ring.Valid) : ring.used < ring.size := by
  have := valid.write_lt
  unfold used
  split <;> omega

theorem Valid.write_eq {ring : RingBuffer α} (valid : ring.Valid) :
    ring.write = (ring.read + ring.used) % ring.size := by
  have := valid.write_lt
  have := valid.read_lt
  rw [wrapped (by have := valid.used_lt; omega)]
  unfold used
  split <;> split <;> omega

theorem unread_eq_nil {ring : RingBuffer α} (empty : ring.read = ring.write) : ring.unread = [] := by
  simp [unread, used, empty]

section

variable {ring : RingBuffer α} (valid : ring.Valid) (room : ring.used + 1 < ring.size)
include valid room

theorem put_eq (item : α) :
    ring.put item = { ring with
      cells := Function.update ring.cells ring.write item
      write := (ring.write + 1) % ring.size } := by
  have write := valid.write_lt
  have read := valid.read_lt
  have ne : (ring.write + 1) % ring.size ≠ ring.read := by
    rw [wrapped (by omega)]
    unfold used at room
    split at room <;> split <;> omega
  exact if_neg ne

theorem used_put (item : α) : (ring.put item).used = ring.used + 1 := by
  have write := valid.write_lt
  have read := valid.read_lt
  rw [put_eq valid room]
  simp only [used] at room ⊢
  rw [wrapped (by omega)]
  split at room <;> split <;> split <;> omega

theorem valid_put (item : α) : (ring.put item).Valid := by
  rw [put_eq valid room]
  exact ⟨Nat.mod_lt _ (by omega), valid.read_lt⟩

theorem unread_put (item : α) : (ring.put item).unread = ring.unread ++ [item] := by
  have used := used_put valid room item
  rw [put_eq valid room] at used ⊢
  simp only [unread]
  rw [used, range_succ, map_append]
  congr 1
  · apply map_congr_left
    intro k hin
    have pre : k < ring.used := mem_range.mp hin
    have read := valid.read_lt
    -- an unread cell is not the one that is written
    refine Function.update_of_ne ?_ _ _
    rw [valid.write_eq, wrapped (by omega), wrapped (by omega)]
    split <;> split <;> omega
  · simp [← valid.write_eq]

end

theorem putAll_spec {ring : RingBuffer α} (valid : ring.Valid) (items : List α)
    (room : ring.used + items.length < ring.size) :
    (ring.putAll items).Valid ∧ (ring.putAll items).unread = ring.unread ++ items ∧
      (ring.putAll items).size = ring.size := by
  induction items generalizing ring with
  | nil => exact ⟨valid, (append_nil _).symm, rfl⟩
  | cons item rest ih =>
    simp only [length_cons] at room
    have one : ring.used + 1 < ring.size := by omega
    have size : (ring.put item).size = ring.size := by rw [put_eq valid one]
    have used : (ring.put item).used = ring.used + 1 := used_put valid one item
    obtain ⟨valid', unread', size'⟩ := ih (valid_put valid one item) (by omega)
    refine ⟨valid', ?_, size'.trans size⟩
    rw [putAll, foldl_cons, ← putAll, unread', unread_put valid one, append_assoc, singleton_append]

section

variable {ring : RingBuffer α} (valid : ring.Valid)
include valid

theorem Valid.put (item : α) : (ring.put item).Valid ∧ (ring.put item).size = ring.size := by
  have filled : 0 < ring.size := Nat.zero_lt_of_lt valid.write_lt
  unfold RingBuffer.put
  dsimp only
  split
  · exact ⟨⟨Nat.mod_lt _ filled, Nat.mod_lt _ filled⟩, rfl⟩
  · exact ⟨⟨Nat.mod_lt _ filled, valid.read_lt⟩, rfl⟩

theorem Valid.putAll (items : List α) : (ring.putAll items).Valid ∧ (ring.putAll items).size = ring.size := by
  induction items generalizing ring with
  | nil => exact ⟨valid, rfl⟩
  | cons item rest ih =>
    obtain ⟨first, size⟩ := valid.put item
    obtain ⟨all, eq⟩ := ih first
    exact ⟨all, eq.trans size⟩

theorem read_putAll (items : List α) (room : ring.used + items.length < ring.size) :
    (ring.putAll items).read = ring.read := by
  induction items generalizing ring with
  | nil => rfl
  | cons item rest ih =>
    rw [length_cons] at room
    have one : ring.used + 1 < ring.size := by omega
    have used : (ring.put item).used = ring.used + 1 := used_put valid one item
    obtain ⟨valid', size⟩ := valid.put item
    have rest := ih valid' (by omega)
    have first : (ring.put item).read = ring.read := by rw [put_eq valid one]
    exact rest.trans first

theorem read_put_full (item : α) (several : 1 < ring.size) (full : ring.used + 1 = ring.size) :
    (ring.put item).read ≠ ring.read := by
  have next := wrapped (show ring.write + 1 < 2 * ring.size by have := valid.write_lt; omega)
  have onward := wrapped (show ring.read + 1 < 2 * ring.size by have := valid.read_lt; omega)
  have meets : (ring.write + 1) % ring.size = ring.read := by
    have write := valid.write_lt
    have read := valid.read_lt
    rw [next]
    unfold used at full
    split at full <;> split <;> omega
  unfold put
  rw [if_pos meets]
  change (ring.read + 1) % ring.size ≠ ring.read
  rw [onward]
  split <;> omega

theorem read_putAll_full (items : List α) (several : 1 < ring.size) (full : ring.used + items.length = ring.size) :
    (ring.putAll items).read ≠ ring.read := by
  have used := valid.used_lt
  rcases eq_nil_or_concat items with rfl | ⟨front, last, rfl⟩
  · rw [length_nil] at full
    omega
  · rw [concat_eq_append, length_append, length_singleton] at full
    have room : ring.used + front.length < ring.size := by omega
    obtain ⟨valid', unread, size⟩ := putAll_spec valid front room
    have used' : (ring.putAll front).used = ring.used + front.length := by
      rw [← length_unread, unread, length_append, length_unread]
    have moved := read_put_full valid' last (by omega) (by omega)
    rw [read_putAll valid front room] at moved
    rw [concat_eq_append, putAll, foldl_append]
    exact moved

end

theorem take_spec (count : Nat) {ring : RingBuffer α} (valid : ring.Valid) :
    (take count ring).1 = ring.unread.take count ∧ (take count ring).2.unread = ring.unread.drop count ∧
      (take count ring).2.Valid ∧ (take count ring).2.size = ring.size := by
  induction count generalizing ring with
  | zero => exact ⟨rfl, rfl, valid, rfl⟩
  | succ count ih =>
    unfold take
    split
    case isTrue empty =>
      have none := unread_eq_nil empty
      exact ⟨by rw [none]; rfl, by rw [none]; rfl, valid, rfl⟩
    case isFalse differ =>
      have write := valid.write_lt
      have read := valid.read_lt
      have valid' : RingBuffer.Valid { ring with read := (ring.read + 1) % ring.size } :=
        ⟨write, Nat.mod_lt _ (by omega)⟩
      have used : ring.used = used { ring with read := (ring.read + 1) % ring.size } + 1 := by
        simp only [RingBuffer.used]
        rw [wrapped (by omega)]
        split <;> split <;> split <;> omega
      have unread : ring.unread =
          ring.cells ring.read :: unread { ring with read := (ring.read + 1) % ring.size } := by
        simp only [RingBuffer.unread]
        rw [used, range_succ_eq_map, map_cons, map_map, Nat.add_zero, Nat.mod_eq_of_lt read]
        congr 1
        apply map_congr_left
        intro k _
        simp only [Function.comp, Nat.succ_eq_add_one, Nat.mod_add_mod]
        congr 2
        omega
      obtain ⟨ht, left, rest, size⟩ := ih valid'
      rw [unread]
      exact ⟨congrArg _ ht, left, rest, size⟩

end RingBuffer

end RosKernel.Library
