import Mathlib.Algebra.GroupWithZero.Nat
import Mathlib.Algebra.Order.BigOperators.Group.List

/-! The longest beginning of a list that costs no more than there is room. -/

set_option autoImplicit false

namespace RosKernel.Library

open List

variable {Item : Type} {cost : Item → Nat}

def fitting (cost : Item → Nat) : Nat → List Item → List Item
  | _, [] => []
  | room, item :: items => if room < cost item then [] else item :: fitting cost (room - cost item) items

theorem prefixed_fitting (cost : Item → Nat) (room : Nat) (items : List Item) : fitting cost room items <+: items := by
  induction items generalizing room with
  | nil => exact prefix_refl _
  | cons item items ih =>
    unfold fitting
    split
    · exact nil_prefix
    · exact (cons_prefix_cons).mpr ⟨rfl, ih _⟩

theorem cost_fitting_le (cost : Item → Nat) (room : Nat) (items : List Item) : ((fitting cost room items).map cost).sum ≤ room := by
  induction items generalizing room with
  | nil => exact Nat.zero_le _
  | cons item items ih =>
    unfold fitting
    split
    · exact Nat.zero_le _
    · have rest := ih (room - cost item)
      rw [map_cons, sum_cons]
      omega

theorem fitting_of_le {room : Nat} {items : List Item} (enough : (items.map cost).sum ≤ room) : fitting cost room items = items := by
  induction items generalizing room with
  | nil => rfl
  | cons item items ih =>
    rw [map_cons, sum_cons] at enough
    rw [fitting, if_neg (by omega), ih (by omega)]

theorem fitting_eq_self_iff {room : Nat} {items : List Item} : fitting cost room items = items ↔ (items.map cost).sum ≤ room := by
  constructor
  · intro all
    have enough := cost_fitting_le cost room items
    rwa [all] at enough
  · exact fitting_of_le

theorem fitting_eq_nil {room : Nat} {items : List Item} (none : fitting cost room items = []) (lt : ∀ item ∈ items, cost item ≤ room) :
    items = [] := by
  cases items with
  | nil => rfl
  | cons item items =>
    rw [fitting, if_neg (Nat.not_lt.mpr (lt item mem_cons_self))] at none
    exact nomatch none

end RosKernel.Library
