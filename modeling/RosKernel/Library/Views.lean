import RosKernel.Library.Bytes

/-! Blocks of 32-bit words read by the byte, and bytes copied into a block. -/

set_option autoImplicit false

namespace RosKernel.Library

open List

def byteView (words : Nat → Nat) : Bytes := fun pos => UInt8.ofNat (words (pos / 4) / 256 ^ (pos % 4))

def wordView (data : Bytes) : Nat → Nat := fun index => load data (4 * index) 4

def putBytes (data : Bytes) (addr : Nat) (bytes : List UInt8) : Bytes :=
  fun pos => if addr ≤ pos ∧ pos < addr + bytes.length then bytes.getD (pos - addr) 0 else data pos

variable {data : Bytes} {addr : Nat} {bytes : List UInt8}

theorem digit_load (data : Bytes) (addr : Nat) {width place : Nat} (hin : place < width) :
    load data addr width / 256 ^ place % 256 = (data (addr + place)).toNat := by
  induction width with
  | zero => exact absurd hin (Nat.not_lt_zero _)
  | succ width ih =>
    have byte := (data (addr + width)).toNat_lt
    have below := load_lt data addr width
    rw [load]
    by_cases top : place = width
    · rw [top, Nat.add_mul_div_right _ _ (Nat.pow_pos (by decide)), Nat.div_eq_of_lt below, Nat.zero_add, Nat.mod_eq_of_lt (by omega)]
    · obtain ⟨more, rfl⟩ := Nat.exists_eq_add_of_lt (show place < width by omega)
      have scaled : (data (addr + (place + more + 1))).toNat * 256 ^ (place + more + 1) =
          (data (addr + (place + more + 1))).toNat * 256 ^ more * 256 * 256 ^ place := by
        rw [Nat.pow_succ, Nat.pow_add]
        ac_rfl
      rw [scaled, Nat.add_mul_div_right _ _ (Nat.pow_pos (by decide)), Nat.add_mul_mod_self_right]
      exact ih (by omega)

@[simp] theorem byteView_wordView (data : Bytes) : byteView (wordView data) = data := by
  funext pos
  have digit := digit_load data (4 * (pos / 4)) (Nat.mod_lt pos (show 0 < 4 by decide))
  rw [show 4 * (pos / 4) + pos % 4 = pos by omega] at digit
  have narrow : UInt8.ofNat (load data (4 * (pos / 4)) 4 / 256 ^ (pos % 4)) = UInt8.ofNat (data pos).toNat := by
    rw [← digit]
    exact UInt8.toNat_inj.mp (by simp)
  exact narrow.trans UInt8.ofNat_toNat

@[simp] theorem byteView_zero : byteView (fun _ => 0) = fun _ => 0 := by
  funext pos
  change UInt8.ofNat (0 / 256 ^ (pos % 4)) = 0
  rw [Nat.zero_div]
  rfl

theorem putBytes_outside {pos : Nat} (out : pos < addr ∨ addr + bytes.length ≤ pos) : putBytes data addr bytes pos = data pos :=
  if_neg (by omega)

theorem sameBytes_putBytes {start width : Nat} (ne : start + width ≤ addr ∨ addr + bytes.length ≤ start) :
    SameBytes data (putBytes data addr bytes) start width :=
  fun _ low high => putBytes_outside (by omega)

theorem map_putBytes : ((range bytes.length).map fun i => putBytes data addr bytes (addr + i)) = bytes := by
  apply ext_getElem
  · rw [length_map, length_range]
  · intro i left right
    have h : putBytes data addr bytes (addr + i) = bytes.getD (addr + i - addr) 0 := if_pos ⟨by omega, by omega⟩
    rw [getElem_map, getElem_range, h, Nat.add_sub_cancel_left, getD_eq_getElem?_getD, getElem?_eq_getElem right]
    rfl

end RosKernel.Library
