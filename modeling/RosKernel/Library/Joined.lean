import Mathlib.Data.List.Basic

/-! Lists put together from parts, each behind a separator. -/

set_option autoImplicit false

namespace RosKernel.Library

open List

variable {Item : Type} {sep : Item} {parts more : List (List Item)} {text rest : List Item}

def joined (sep : Item) (parts : List (List Item)) : List Item := parts.flatMap (sep :: ·)

theorem joined_cons (part : List Item) (parts : List (List Item)) : joined sep (part :: parts) = sep :: (part ++ joined sep parts) := rfl

theorem joined_append (parts more : List (List Item)) : joined sep (parts ++ more) = joined sep parts ++ joined sep more :=
  flatMap_append

theorem head?_joined (some : parts ≠ []) : (joined sep parts).head? = .some sep := by
  obtain ⟨part, others, rfl⟩ := exists_cons_of_ne_nil some
  rfl

section

variable [BEq Item] [LawfulBEq Item]

theorem splitOn_joined (free : ∀ part ∈ parts, sep ∉ part) : (joined sep parts).splitOn sep = [] :: parts := by
  induction parts with
  | nil => rfl
  | cons part parts ih =>
    obtain ⟨h, others⟩ := forall_mem_cons.mp free
    rw [joined_cons, ← nil_append (sep :: _), splitOn_append_cons_self, splitOn_nil]
    cases parts with
    | nil =>
      rw [joined, flatMap_nil, append_nil, splitOn_eq_singleton h]
      rfl
    | cons next parts =>
      have later := ih others
      rw [joined_cons, ← nil_append (sep :: _), splitOn_append_cons_self, splitOn_nil] at later
      rw [joined_cons, splitOn_append_cons_self, splitOn_eq_singleton h]
      exact congrArg (fun tail => [] :: part :: tail) (cons.inj later).2

theorem joined_splitOn (sep : Item) (text : List Item) : joined sep (text.splitOn sep) = sep :: text := by
  induction text with
  | nil => rfl
  | cons item text ih =>
    rw [splitOn_cons_eq_if_modifyHead]
    split
    case isTrue eq =>
      rw [joined_cons, ih, eq_of_beq eq]
      rfl
    case isFalse =>
      obtain ⟨part, parts, split⟩ := exists_cons_of_ne_nil (splitOn_ne_nil sep text)
      rw [split, joined_cons] at ih
      rw [split, modifyHead_cons, joined_cons, cons_append, (cons.inj ih).2]

section

variable (free : ∀ part ∈ parts, sep ∉ part) (freeMore : ∀ part ∈ more, sep ∉ part)
include free freeMore

theorem joined_injective (eq : joined sep parts = joined sep more) : parts = more := by
  have split := congrArg (List.splitOn sep) eq
  rw [splitOn_joined free, splitOn_joined freeMore] at split
  exact (cons.inj split).2

theorem joined_isPrefix_iff :
    parts <+: more ↔ ∃ rest, joined sep more = joined sep parts ++ rest ∧ (rest = [] ∨ rest.head? = .some sep) := by
  constructor
  · rintro ⟨others, rfl⟩
    refine ⟨joined sep others, joined_append parts others, ?_⟩
    by_cases none : others = []
    · exact .inl (congrArg (joined sep) none)
    · exact .inr (head?_joined none)
  · rintro ⟨rest, whole, ended | begins⟩
    · rw [ended, append_nil] at whole
      exact joined_injective freeMore free whole ▸ prefix_refl _
    · obtain ⟨text, rfl⟩ := head?_eq_some_iff.mp begins
      have split := congrArg (List.splitOn sep) whole
      rw [splitOn_append_cons_self, splitOn_joined free, splitOn_joined freeMore, cons_append] at split
      exact ⟨text.splitOn sep, (cons.inj split).2.symm⟩

end

end

end RosKernel.Library
