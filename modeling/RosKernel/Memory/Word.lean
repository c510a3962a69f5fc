import Mathlib.Data.Nat.Bitwise

/-! 64-bit unsigned arithmetic and page rounding as the kernel computes them.

Values are natural numbers below `2 ^ 64`; every operation that may leave this
range reduces its result as the machine does.
-/

set_option autoImplicit false

namespace RosKernel.Memory

def pageSize : Nat := 0x1000

def add64 (a b : Nat) : Nat := (a + b) % 2 ^ 64

def sub64 (a b : Nat) : Nat := (a + (2 ^ 64 - b)) % 2 ^ 64

def mul64 (a b : Nat) : Nat := a * b % 2 ^ 64

/-- `value & ~0xFFF`; the mask is sign-extended to 64 bits. -/
def pageMask (value : Nat) : Nat := value &&& 0xFFFFFFFFFFFFF000

/-- `(value + 0xFFF) & ~0xFFF`. -/
def pageAlign (value : Nat) : Nat := pageMask (add64 value 0xFFF)

theorem add64_eq {a b : Nat} (lt : a + b < 2 ^ 64) : add64 a b = a + b := Nat.mod_eq_of_lt lt

theorem add64_lt (a b : Nat) : add64 a b < 2 ^ 64 := Nat.mod_lt _ (by decide)

theorem add64_add64 (a b c : Nat) : add64 (add64 a b) c = add64 a (b + c) := by
  simp only [add64]
  omega

theorem sub64_eq {a b : Nat} (ord : b ≤ a) (lt : a < 2 ^ 64) : sub64 a b = a - b := by
  unfold sub64
  omega

theorem mul64_eq {a b : Nat} (lt : a * b < 2 ^ 64) : mul64 a b = a * b := Nat.mod_eq_of_lt lt

theorem clearLow_eq {value : Nat} (low : Nat) (lt : value < 2 ^ 64) :
    value &&& (2 ^ (64 - low) - 1) * 2 ^ low = value / 2 ^ low * 2 ^ low := by
  apply Nat.eq_of_testBit_eq
  intro i
  simp only [Nat.testBit_and, Nat.testBit_mul_two_pow, Nat.testBit_two_pow_sub_one, Nat.testBit_div_two_pow]
  by_cases above : low ≤ i
  · by_cases hin : i < 64
    · simp [above, show i - low < 64 - low by omega]
    · have zero : value.testBit i = false :=
        Nat.testBit_lt_two_pow (Nat.lt_of_lt_of_le lt (Nat.pow_le_pow_right (by decide) (by omega)))
      simp [above, zero]
  · simp [above]

theorem pageMask_eq {value : Nat} (lt : value < 2 ^ 64) : pageMask value = value / 4096 * 4096 :=
  clearLow_eq 12 lt

theorem pageAlign_eq {value : Nat} (lt : value ≤ 2 ^ 64 - 4096) :
    pageAlign value = (value + 4095) / 4096 * 4096 := by
  unfold pageAlign
  rw [add64_eq (by omega), pageMask_eq (by omega)]

theorem pageAlign_wrap {value : Nat} (large : 2 ^ 64 - 4096 < value) (lt : value < 2 ^ 64) :
    pageAlign value = 0 := by
  unfold pageAlign
  rw [pageMask_eq (add64_lt _ _)]
  unfold add64
  omega

end RosKernel.Memory
