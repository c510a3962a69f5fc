import Mathlib.Algebra.Order.Ring.Nat


/-! Byte-addressed memory with little-endian fields.

A field is read and written byte by byte from its lowest address on. What a proof
needs of a write is that it can be read back and that it leaves every other byte
alone.
-/

set_option autoImplicit false

namespace RosKernel.Library

abbrev Bytes := Nat → UInt8

def store (mem : Bytes) (addr : Nat) : Nat → Nat → Bytes
  | 0, _ => mem
  | width + 1, value =>
    Function.update (store mem addr width value) (addr + width) (UInt8.ofNat (value / 256 ^ width))

def load (mem : Bytes) (addr : Nat) : Nat → Nat
  | 0 => 0
  | width + 1 => load mem addr width + (mem (addr + width)).toNat * 256 ^ width

/-- The bytes from `addr` on, `width` of them, are the same in both memories. -/
def SameBytes (mem other : Bytes) (addr width : Nat) : Prop :=
  ∀ pos, addr ≤ pos → pos < addr + width → other pos = mem pos

variable {mem other : Bytes} {addr width : Nat}

theorem store_outside {value pos : Nat} (out : pos < addr ∨ addr + width ≤ pos) :
    store mem addr width value pos = mem pos := by
  induction width with
  | zero => rfl
  | succ width ih =>
    rw [store, Function.update_of_ne (by omega)]
    exact ih (by omega)

theorem load_congr (eq : SameBytes mem other addr width) : load other addr width = load mem addr width := by
  induction width with
  | zero => rfl
  | succ width ih =>
    rw [load, load, ih fun pos low high => eq pos low (by omega), eq (addr + width) (by omega) (by omega)]

theorem SameBytes.trans {third : Bytes} (first : SameBytes mem other addr width)
    (snd : SameBytes other third addr width) : SameBytes mem third addr width :=
  fun pos low high => (snd pos low high).trans (first pos low high)

theorem SameBytes.mono {start len : Nat} (eq : SameBytes mem other addr width) (low : addr ≤ start)
    (high : start + len ≤ addr + width) : SameBytes mem other start len :=
  fun pos first last => eq pos (by omega) (by omega)

theorem sameBytes_store {start len value : Nat} (ne : addr + width ≤ start ∨ start + len ≤ addr) :
    SameBytes mem (store mem start len value) addr width :=
  fun _ low high => store_outside (by omega)

theorem load_store_apart {start len value : Nat} (ne : addr + width ≤ start ∨ start + len ≤ addr) :
    load (store mem start len value) addr width = load mem addr width :=
  load_congr (sameBytes_store ne)

theorem load_lt (mem : Bytes) (addr width : Nat) : load mem addr width < 256 ^ width := by
  induction width with
  | zero => exact Nat.one_pos
  | succ width ih =>
    have byte := (mem (addr + width)).toNat_lt
    have scaled : (mem (addr + width)).toNat * 256 ^ width ≤ 255 * 256 ^ width :=
      Nat.mul_le_mul_right _ (by omega)
    rw [load, Nat.pow_succ]
    omega

theorem load_zero (addr width : Nat) : load (fun _ => 0) addr width = 0 := by
  induction width with
  | zero => rfl
  | succ width ih =>
    rw [load, ih]
    exact Nat.zero_add _ |>.trans (Nat.zero_mul _)

theorem load_store (mem : Bytes) (addr width value : Nat) :
    load (store mem addr width value) addr width = value % 256 ^ width := by
  induction width with
  | zero => rw [load, Nat.pow_zero, Nat.mod_one]
  | succ width ih =>
    have lower : load (store mem addr (width + 1) value) addr width = load (store mem addr width value) addr width :=
      load_congr fun pos _ high => Function.update_of_ne (by omega) _ _
    have byte : (UInt8.ofNat (value / 256 ^ width)).toNat = value / 256 ^ width % 256 := UInt8.toNat_ofNat'
    have split : value % 256 ^ (width + 1) = value % 256 ^ width + 256 ^ width * (value / 256 ^ width % 256) := by
      rw [Nat.pow_succ, Nat.mod_mul]
    rw [load, lower, ih, store, Function.update_self, byte, split, Nat.mul_comm]

end RosKernel.Library
