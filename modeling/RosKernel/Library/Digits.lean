import Mathlib.Tactic.Ring

/-! Digits of a number, and one digit replaced. -/

set_option autoImplicit false

namespace RosKernel.Library

def digit (base number place : Nat) : Nat := number / base ^ place % base

def setDigit (base number place value : Nat) : Nat :=
  number / base ^ (place + 1) * base ^ (place + 1) + value * base ^ place + number % base ^ place

variable {base value : Nat} (number : Nat)

theorem digit_setDigit (lt : value < base) (place : Nat) : digit base (setDigit base number place value) place = value := by
  have pos : 0 < base ^ place := Nat.pow_pos (Nat.zero_lt_of_lt lt)
  have split : setDigit base number place value =
      number % base ^ place + (value + base * (number / base ^ (place + 1))) * base ^ place := by
    unfold setDigit
    ring
  rw [digit, split, Nat.add_mul_div_right _ _ pos, Nat.div_eq_of_lt (Nat.mod_lt _ pos), Nat.zero_add,
    Nat.add_mul_mod_self_left, Nat.mod_eq_of_lt lt]

theorem digit_setDigit_above (lt : value < base) {place other : Nat} (above : place < other) :
    digit base (setDigit base number place value) other = digit base number other := by
  obtain ⟨more, rfl⟩ := Nat.exists_eq_add_of_lt above
  have pos : 0 < base := Nat.zero_lt_of_lt lt
  have low : number % base ^ place + value * base ^ place < base ^ (place + 1) := by
    have rest := Nat.mod_lt number (Nat.pow_pos (n := place) pos)
    have scaled : (value + 1) * base ^ place ≤ base * base ^ place := Nat.mul_le_mul_right _ lt
    rw [Nat.pow_succ, Nat.mul_comm _ base]
    rw [Nat.add_mul, Nat.one_mul] at scaled
    omega
  have split : setDigit base number place value =
      number % base ^ place + value * base ^ place + number / base ^ (place + 1) * base ^ (place + 1) := by
    unfold setDigit
    ring
  have exponent : base ^ (place + more + 1) = base ^ (place + 1) * base ^ more := by ring
  rw [digit, digit, split, exponent, ← Nat.div_div_eq_div_mul, ← Nat.div_div_eq_div_mul,
    Nat.add_mul_div_right _ _ (Nat.pow_pos pos), Nat.div_eq_of_lt low, Nat.zero_add]

theorem digit_setDigit_below (lt : value < base) {place other : Nat} (below : other < place) :
    digit base (setDigit base number place value) other = digit base number other := by
  obtain ⟨more, rfl⟩ := Nat.exists_eq_add_of_lt below
  have pos : 0 < base := Nat.zero_lt_of_lt lt
  have split : setDigit base number (other + more + 1) value = number % base ^ (other + more + 1) +
      base * (number / base ^ (other + more + 1 + 1) * base ^ (more + 1) + value * base ^ more) * base ^ other := by
    unfold setDigit
    ring
  have exponent : base ^ (other + more + 1) = base ^ other * (base * base ^ more) := by ring
  rw [digit, digit, split, Nat.add_mul_div_right _ _ (Nat.pow_pos pos), Nat.add_mul_mod_self_left, exponent,
    Nat.mod_mul_right_div_self, Nat.mod_mul_right_mod]

theorem digit_setDigit_of_ne (lt : value < base) {place other : Nat} (differ : other ≠ place) :
    digit base (setDigit base number place value) other = digit base number other := by
  rcases Nat.lt_or_gt_of_ne differ with below | above
  · exact digit_setDigit_below number lt below
  · exact digit_setDigit_above number lt above

theorem range_mul_map {α : Type} (m n : Nat) (f : Nat → α) :
    (List.range (m * n)).map f = (List.range m).flatMap fun s => (List.range n).map fun k => f (s * n + k) := by
  induction m with
  | zero => simp
  | succ m ih =>
    rw [Nat.succ_mul, List.range_add, List.map_append, ih, List.range_succ, List.flatMap_append]
    simp [List.map_map, Function.comp_def]

end RosKernel.Library
