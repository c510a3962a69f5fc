import RosKernel.Library.Bytes
import RosKernel.Library.Digits
import RosKernel.Memory.Paging

/-! Physical memory byte by byte.

The direct map shows every frame, so the kernel reads and writes physical memory at any address. A word of a frame is
eight bytes with the lowest first.
-/

set_option autoImplicit false

namespace RosKernel.Memory

open Library List

def frameOf (addr : Nat) : Nat := addr / pageSize * pageSize

def wordOf (addr : Nat) : Nat := addr % pageSize / 8

namespace PageMemory

def byteAt (memory : PageMemory) (addr : Nat) : UInt8 :=
  UInt8.ofNat (memory.words (frameOf addr) (wordOf addr) / 256 ^ (addr % 8))

def setByte (memory : PageMemory) (addr : Nat) (byte : UInt8) : PageMemory :=
  memory.write (frameOf addr) (wordOf addr)
    (setDigit 256 (memory.words (frameOf addr) (wordOf addr)) (addr % 8) byte.toNat)

/-- `Memcpy` to a physical address. -/
def writeBytes (memory : PageMemory) (addr : Nat) : List UInt8 → PageMemory
  | [] => memory
  | byte :: bytes => (memory.setByte addr byte).writeBytes (addr + 1) bytes

/-- `Memcpy` from a physical address. -/
def readBytes (memory : PageMemory) (addr count : Nat) : List UInt8 := (range count).map fun k => memory.byteAt (addr + k)

end PageMemory

def wordBytes (value : Nat) : List UInt8 := (range 8).map fun k => UInt8.ofNat (value / 256 ^ k)

/-- The value that bytes make up, the lowest first. -/
def wordValue : List UInt8 → Nat
  | [] => 0
  | byte :: bytes => byte.toNat + 256 * wordValue bytes

theorem length_wordBytes (value : Nat) : (wordBytes value).length = 8 := by simp [wordBytes]

theorem wordValue_wordBytes {value : Nat} (lt : value < 2 ^ 64) : wordValue (wordBytes value) = value := by
  simp only [wordBytes, show range 8 = [0, 1, 2, 3, 4, 5, 6, 7] from rfl, map_cons, map_nil, wordValue,
    UInt8.toNat_ofNat']
  omega

section

variable {memory : PageMemory}

theorem setByte_words (memory : PageMemory) (addr : Nat) (byte : UInt8) {frame i : Nat}
    (other : frame ≠ frameOf addr ∨ i ≠ wordOf addr) : (memory.setByte addr byte).words frame i = memory.words frame i := by
  unfold PageMemory.setByte PageMemory.write
  by_cases eq : frame = frameOf addr
  · subst eq
    simp [Function.update_of_ne (other.resolve_left fun absent => absent rfl)]
  · simp [Function.update_of_ne eq]

theorem toNat_byteAt (memory : PageMemory) (addr : Nat) :
    (memory.byteAt addr).toNat = digit 256 (memory.words (frameOf addr) (wordOf addr)) (addr % 8) := UInt8.toNat_ofNat'

theorem byteAt_setByte (memory : PageMemory) (addr : Nat) (byte : UInt8) :
    (memory.setByte addr byte).byteAt = Function.update memory.byteAt addr byte := by
  funext pos
  by_cases sameWord : frameOf pos = frameOf addr ∧ wordOf pos = wordOf addr
  · have written : (memory.setByte addr byte).words (frameOf pos) (wordOf pos) =
        setDigit 256 (memory.words (frameOf addr) (wordOf addr)) (addr % 8) byte.toNat := by
      rw [sameWord.1, sameWord.2]
      simp [PageMemory.setByte, PageMemory.write]
    apply UInt8.toNat_inj.mp
    rw [toNat_byteAt, written]
    by_cases eq : pos = addr
    · subst eq
      rw [Function.update_self, digit_setDigit _ byte.toNat_lt]
    · have differ : pos % 8 ≠ addr % 8 := by
        intro samePlace
        unfold frameOf wordOf pageSize at sameWord
        omega
      rw [Function.update_of_ne eq, toNat_byteAt, digit_setDigit_of_ne _ byte.toNat_lt differ, sameWord.1, sameWord.2]
  · have differ : pos ≠ addr := fun eq => sameWord (by rw [eq]; exact ⟨rfl, rfl⟩)
    rw [Function.update_of_ne differ, PageMemory.byteAt, PageMemory.byteAt, setByte_words]
    by_cases sameFrame : frameOf pos = frameOf addr
    · omega
    · exact .inl sameFrame

theorem byteAt_writeBytes_outside {addr pos : Nat} {bytes : List UInt8}
    (out : pos < addr ∨ addr + bytes.length ≤ pos) : (memory.writeBytes addr bytes).byteAt pos = memory.byteAt pos := by
  induction bytes generalizing memory addr with
  | nil => rfl
  | cons byte bytes ih =>
    rw [length_cons] at out
    rw [PageMemory.writeBytes, ih (by omega), byteAt_setByte, Function.update_of_ne (by omega)]

theorem byteAt_writeBytes {addr : Nat} {bytes : List UInt8} {k : Nat} (hin : k < bytes.length) :
    (memory.writeBytes addr bytes).byteAt (addr + k) = bytes[k] := by
  induction bytes generalizing memory addr k with
  | nil => exact absurd hin (Nat.not_lt_zero k)
  | cons byte bytes ih =>
    rw [PageMemory.writeBytes]
    cases k with
    | zero => rw [byteAt_writeBytes_outside (.inl (by omega)), byteAt_setByte, Nat.add_zero, Function.update_self]; rfl
    | succ k =>
      rw [length_cons] at hin
      rw [show addr + (k + 1) = addr + 1 + k by omega, ih (by omega)]
      rfl

theorem writeBytes_words {addr frame i : Nat} {bytes : List UInt8} (away : ∀ k < bytes.length, frame ≠ frameOf (addr + k)) :
    (memory.writeBytes addr bytes).words frame i = memory.words frame i := by
  induction bytes generalizing memory addr with
  | nil => rfl
  | cons byte bytes ih =>
    rw [PageMemory.writeBytes, ih, setByte_words memory addr byte (.inl (away 0 (Nat.zero_lt_succ _)))]
    intro k hin
    rw [show addr + 1 + k = addr + (k + 1) by omega]
    exact away (k + 1) (Nat.succ_lt_succ hin)

theorem readBytes_congr {memory' : PageMemory} {addr count : Nat}
    (eq : ∀ k < count, memory'.byteAt (addr + k) = memory.byteAt (addr + k)) :
    memory'.readBytes addr count = memory.readBytes addr count := by
  apply map_congr_left
  intro k hin
  exact eq k (mem_range.mp hin)

theorem byteAt_congr {memory' : PageMemory} {addr : Nat}
    (eq : memory'.words (frameOf addr) (wordOf addr) = memory.words (frameOf addr) (wordOf addr)) :
    memory'.byteAt addr = memory.byteAt addr := by
  rw [PageMemory.byteAt, PageMemory.byteAt, eq]

theorem digit_load (bytes : Bytes) (addr : Nat) {k width : Nat} (hin : k < width) :
    digit 256 (load bytes addr width) k = (bytes (addr + k)).toNat := by
  have pos : 0 < 256 ^ k := Nat.pow_pos (by decide)
  induction width with
  | zero => exact absurd hin (Nat.not_lt_zero k)
  | succ width ih =>
    have byte := (bytes (addr + width)).toNat_lt
    rw [load, digit]
    by_cases last : k = width
    · subst last
      rw [Nat.add_mul_div_right _ _ pos, Nat.div_eq_of_lt (load_lt bytes addr k), Nat.zero_add, Nat.mod_eq_of_lt byte]
    · obtain ⟨more, rfl⟩ := Nat.exists_eq_add_of_lt (show k < width by omega)
      have split : (bytes (addr + (k + more + 1))).toNat * 256 ^ (k + more + 1) =
          256 * ((bytes (addr + (k + more + 1))).toNat * 256 ^ more) * 256 ^ k := by ring
      rw [split, Nat.add_mul_div_right _ _ pos, Nat.add_mul_mod_self_left]
      exact ih (by omega)

theorem byteAt_page {bytes : Bytes} {frame k : Nat} (hal : frame % pageSize = 0) (hin : k < pageSize)
    (filled : ∀ i, memory.words frame i = load bytes (8 * i) 8) : memory.byteAt (frame + k) = bytes k := by
  have h : frameOf (frame + k) = frame := by
    unfold frameOf pageSize at *
    omega
  have word : 8 * wordOf (frame + k) + (frame + k) % 8 = k := by
    unfold wordOf pageSize at *
    omega
  apply UInt8.toNat_inj.mp
  rw [toNat_byteAt, h, filled, digit_load _ _ (Nat.mod_lt _ (by decide)), word]

end

end RosKernel.Memory
