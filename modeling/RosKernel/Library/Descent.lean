import Mathlib.Algebra.Order.Ring.Nat


/-! A stack that grows down, with every object at a multiple of a grain. -/

set_option autoImplicit false

namespace RosKernel.Library

variable {α : Type} {grain : Nat}

/-- Where an object of this length goes. -/
def lowered (grain cur len : Nat) : Nat := (cur - len) / grain * grain

def lowest (grain cur : Nat) : List (List α) → Nat
  | [] => cur
  | object :: objects => lowest grain (lowered grain cur object.length) objects

/-- The objects with their places, in the order in which they are pushed. -/
def placed (grain cur : Nat) : List (List α) → List (Nat × List α)
  | [] => []
  | object :: objects =>
    (lowered grain cur object.length, object) :: placed grain (lowered grain cur object.length) objects

/-- The room that an object takes. -/
def taken (grain len : Nat) : Nat := (len + (grain - 1)) / grain * grain

def room (grain : Nat) (objects : List (List α)) : Nat := (objects.map fun object => taken grain object.length).sum

theorem lowered_le (grain cur len : Nat) : lowered grain cur len ≤ cur - len := Nat.div_mul_le_self _ _

theorem lowered_dvd (grain cur len : Nat) : grain ∣ lowered grain cur len := Nat.dvd_mul_left _ _

theorem lowered_eq {cur len : Nat} (pos : 0 < grain) (aligned : grain ∣ cur) (fits : len ≤ cur) :
    lowered grain cur len + taken grain len = cur := by
  obtain ⟨count, rfl⟩ := aligned
  have up := Nat.div_add_mod (len + (grain - 1)) grain
  have rest := Nat.mod_lt (len + (grain - 1)) pos
  have bound : (len + (grain - 1)) / grain ≤ count := by
    apply Nat.le_of_lt_succ
    rw [Nat.div_lt_iff_lt_mul pos, Nat.succ_mul, Nat.mul_comm]
    omega
  have quotient : (grain * count - len) / grain = count - (len + (grain - 1)) / grain := by
    obtain ⟨more, rfl⟩ := Nat.exists_eq_add_of_le bound
    rw [Nat.add_sub_cancel_left]
    apply Nat.div_eq_of_lt_le
    · grind
    · grind
  rw [lowered, taken, quotient, ← Nat.add_mul, Nat.sub_add_cancel bound, Nat.mul_comm]

theorem lowest_append (cur : Nat) (objects more : List (List α)) :
    lowest grain cur (objects ++ more) = lowest grain (lowest grain cur objects) more := by
  induction objects generalizing cur with
  | nil => rfl
  | cons object objects ih => exact ih _

theorem placed_append (cur : Nat) (objects more : List (List α)) :
    placed grain cur (objects ++ more) = placed grain cur objects ++ placed grain (lowest grain cur objects) more := by
  induction objects generalizing cur with
  | nil => rfl
  | cons object objects ih => exact congrArg _ (ih _)

theorem placed_snd (cur : Nat) (objects : List (List α)) : (placed grain cur objects).map Prod.snd = objects := by
  induction objects generalizing cur with
  | nil => rfl
  | cons object objects ih => exact congrArg _ (ih _)

theorem lowest_le (cur : Nat) (objects : List (List α)) : lowest grain cur objects ≤ cur := by
  induction objects generalizing cur with
  | nil => exact Nat.le_refl cur
  | cons object objects ih =>
    have step := lowered_le grain cur object.length
    exact (ih _).trans (by omega)

theorem lowest_dvd {cur : Nat} (hal : grain ∣ cur) (objects : List (List α)) : grain ∣ lowest grain cur objects := by
  induction objects generalizing cur with
  | nil => exact hal
  | cons object objects ih => exact ih (lowered_dvd grain cur object.length)

theorem le_lowest_iff {bound cur : Nat} (pos : 0 < grain) (above : 0 < bound) (aligned : grain ∣ cur)
    (objects : List (List α)) : bound ≤ lowest grain cur objects ↔ bound + room grain objects ≤ cur := by
  induction objects generalizing cur with
  | nil => exact .rfl
  | cons object objects ih =>
    rw [lowest, ih (lowered_dvd grain cur object.length), room, room, List.map_cons, List.sum_cons]
    by_cases fits : object.length ≤ cur
    · have step := lowered_eq pos aligned fits
      omega
    · have zero := lowered_le grain cur object.length
      have enough : object.length ≤ taken grain object.length := by
        have := Nat.div_add_mod (object.length + (grain - 1)) grain
        have := Nat.mod_lt (object.length + (grain - 1)) pos
        rw [taken, Nat.mul_comm]
        omega
      omega

theorem placed_within {cur : Nat} {objects : List (List α)} (above : 0 < lowest grain cur objects) {place : Nat}
    {object : List α} (mem : (place, object) ∈ placed grain cur objects) :
    lowest grain cur objects ≤ place ∧ place + object.length ≤ cur := by
  induction objects generalizing cur with
  | nil => exact nomatch mem
  | cons first objects ih =>
    have step := lowered_le grain cur first.length
    have rest := @lowest_le _ grain (lowered grain cur first.length) objects
    rw [lowest] at above ⊢
    cases mem with
    | head => omega
    | tail _ later =>
      have within := ih above later
      omega

theorem placed_apart {cur : Nat} {objects : List (List α)} (above : 0 < lowest grain cur objects) :
    (placed grain cur objects).Pairwise fun earlier later => later.1 + later.2.length ≤ earlier.1 := by
  induction objects generalizing cur with
  | nil => exact .nil
  | cons first objects ih =>
    rw [lowest] at above
    refine .cons (fun later mem => ?_) (ih above)
    exact (placed_within above mem).2

end RosKernel.Library
