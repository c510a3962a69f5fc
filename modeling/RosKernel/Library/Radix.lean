import Mathlib.Tactic.Common

/-! Radix trees kept in a memory of nodes.

A node holds an entry for each index, and an entry may name a further node. Paths are
read from the end: the last index is looked up in the root.
-/

set_option autoImplicit false

namespace RosKernel.Library

variable {Node Idx Entry : Type} {decode : Entry → Option Node} {words words' : Node → Idx → Entry}

def walk (decode : Entry → Option Node) (words : Node → Idx → Entry) (root : Node) : List Idx → Option Node
  | [] => some root
  | i :: path => (walk decode words root path).bind fun node => decode (words node i)

/-- A set of paths that holds with each path its beginnings. -/
def Closed (domain : Node → List Idx → Prop) : Prop := ∀ root i path, domain root (i :: path) → domain root path

section

variable {domain : Node → List Idx → Prop}

theorem walk_congr (closed : Closed domain)
    (eq : ∀ root path node i, domain root (i :: path) → walk decode words root path = some node →
      decode (words' node i) = decode (words node i)) {root : Node} {path : List Idx} (hin : domain root path) :
    walk decode words' root path = walk decode words root path := by
  induction path with
  | nil => rfl
  | cons i path ih =>
    simp only [walk]
    rw [ih (closed _ _ _ hin)]
    cases h : walk decode words root path with
    | none => rfl
    | some node => exact eq root path node i hin h

theorem walk_set [DecidableEq Node] [DecidableEq Idx] (closed : Closed domain) {root node : Node} {i : Idx}
    {path : List Idx} (hr : walk decode words root path = some node)
    (once : ∀ root' path', domain root' path' → walk decode words root' path' = some node →
      root' = root ∧ path' = path)
    (eq : ∀ root' path' node' j, domain root' (j :: path') → walk decode words root' path' = some node' →
      ¬ (node' = node ∧ j = i) → decode (words' node' j) = decode (words node' j))
    (barren : ∀ child, decode (words node i) = some child →
      ∀ j, domain root (j :: i :: path) → decode (words child j) = none)
    (barren' : ∀ child, decode (words' node i) = some child →
      ∀ j, domain root (j :: i :: path) → decode (words' child j) = none)
    {root' : Node} {path' : List Idx} (hin : domain root' path') :
    walk decode words' root' path' =
      if root' = root ∧ path' = i :: path then decode (words' node i) else walk decode words root' path' := by
  induction path' with
  | nil => rw [if_neg fun both => nomatch both.2]; rfl
  | cons j path' ih =>
    have step : walk decode words' root' (j :: path') =
        (walk decode words' root' path').bind fun node => decode (words' node j) := rfl
    rw [step, ih (closed _ _ _ hin)]
    by_cases below : root' = root ∧ path' = i :: path
    · -- Below the changed entry nothing is hr pre or after.
      obtain ⟨rfl, rfl⟩ := below
      have longer : ¬ (root' = root' ∧ j :: i :: path = i :: path) := by
        intro ⟨_, equal⟩
        exact absurd (congrArg List.length equal) (by simp)
      rw [if_pos ⟨rfl, rfl⟩, if_neg longer]
      have pre : walk decode words root' (j :: i :: path) = none := by
        simp only [walk, hr, Option.bind_some]
        cases h : decode (words node i) with
        | none => rfl
        | some child => exact barren child h j hin
      rw [pre]
      cases h : decode (words' node i) with
      | none => rfl
      | some child => exact barren' child h j hin
    · rw [if_neg below]
      cases h : walk decode words root' path' with
      | none =>
        have other : ¬ (root' = root ∧ j :: path' = i :: path) := by
          rintro ⟨rfl, equal⟩
          cases equal
          rw [hr] at h
          exact nomatch h
        rw [if_neg other]
        simp only [walk, h, Option.bind_none]
      | some node' =>
        by_cases target : root' = root ∧ j :: path' = i :: path
        · obtain ⟨rfl, equal⟩ := target
          cases equal
          rw [hr] at h
          cases h
          rw [if_pos ⟨rfl, rfl⟩]
          rfl
        · rw [if_neg target]
          simp only [walk, h, Option.bind_some]
          apply eq root' path' node' j hin h
          rintro ⟨rfl, rfl⟩
          obtain ⟨rfl, rfl⟩ := once root' path' (closed _ _ _ hin) h
          exact target ⟨rfl, rfl⟩

end

/-- No node is reached along two paths of the domain. -/
def Unshared (domain : List Idx → Prop) (decode : Entry → Option Node) (words : Node → Idx → Entry) (root : Node) : Prop :=
  ∀ path path' node, domain path → domain path' → walk decode words root path = some node →
    walk decode words root path' = some node → path = path'

/-- An empty entry of a node gets a childless node, and nothing else changes. -/
structure Plants (decode : Entry → Option Node) (words words' : Node → Idx → Entry) (node child : Node) (i : Idx) : Prop where
  empty : decode (words node i) = none
  set : decode (words' node i) = some child
  barren : ∀ j, decode (words' child j) = none
  same : ∀ other j, other ≠ child → ¬(other = node ∧ j = i) → words' other j = words other j

section

variable {domain : List Idx → Prop} {root node child : Node} {i : Idx} {path : List Idx}

variable [DecidableEq Node] [DecidableEq Idx] (plants : Plants decode words words' node child i)
    (closed : ∀ i path, domain (i :: path) → domain path) (apart : Unshared domain decode words root)
    (fresh : ∀ path, domain path → walk decode words root path ≠ some child) (hin : domain (i :: path))
    (hr : walk decode words root path = some node)

include plants closed apart fresh hin hr

theorem Plants.walk_eq {path' : List Idx} (hin' : domain path') :
    walk decode words' root path' = if path' = i :: path then some child else walk decode words root path' := by
  have set := @walk_set Node Idx Entry decode words words' (fun top path => top = root ∧ domain path) _ _
    (fun _ i path within => ⟨within.1, closed i path within.2⟩) root node i path hr ?_ ?_ ?_ ?_ root path' ⟨rfl, hin'⟩
  · simp only [true_and, plants.set] at set
    exact set
  · rintro _ other ⟨rfl, within⟩ again
    exact ⟨rfl, apart other path node within (closed _ _ hin) again hr⟩
  · rintro _ other node' j ⟨rfl, within⟩ there elsewhere
    rw [plants.same node' j (fun eq => fresh other (closed _ _ within) (eq ▸ there)) elsewhere]
  · intro old named
    rw [plants.empty] at named
    exact nomatch named
  · intro new named j _
    rw [plants.set] at named
    exact Option.some.inj named ▸ plants.barren j

theorem Plants.unshared : Unshared domain decode words' root := by
  intro left right met leftIn rightIn toLeft toRight
  rw [plants.walk_eq closed apart fresh hin hr leftIn] at toLeft
  rw [plants.walk_eq closed apart fresh hin hr rightIn] at toRight
  split at toLeft <;> split at toRight
  case isTrue.isTrue leftHere rightHere => exact leftHere.trans rightHere.symm
  case isTrue.isFalse => exact absurd (toRight.trans toLeft.symm) (fresh right rightIn)
  case isFalse.isTrue => exact absurd (toLeft.trans toRight.symm) (fresh left leftIn)
  case isFalse.isFalse => exact apart left right met leftIn rightIn toLeft toRight

end

/-- The tree grows by new nodes on the way to one path. -/
def GrowsTo (domain : List Idx → Prop) (decode : Entry → Option Node) (words words' : Node → Idx → Entry) (root : Node)
    (target : List Idx) (new : List Node) : Prop :=
  ∀ path, domain path → walk decode words' root path = walk decode words root path ∨
    (walk decode words root path = none ∧ path <:+ target ∧ ∃ child ∈ new, walk decode words' root path = some child)

section

variable {domain : List Idx → Prop} {root : Node} {words'' : Node → Idx → Entry} {target : List Idx} {new later : List Node}

theorem GrowsTo.refl (target : List Idx) : GrowsTo domain decode words words root target [] := fun _ _ => .inl rfl

theorem GrowsTo.trans {mid : List Idx} (first : GrowsTo domain decode words words' root mid new) (pre : mid <:+ target)
    (snd : GrowsTo domain decode words' words'' root target later) :
    GrowsTo domain decode words words'' root target (new ++ later) := by
  intro path hin
  rcases snd path hin with kept | ⟨empty, onPath, child, mem, planted⟩
  · rcases first path hin with old | ⟨empty, onPath, child, mem, planted⟩
    · exact .inl (kept.trans old)
    · grind
  · rcases first path hin with old | ⟨miss, _, _, _, planted⟩
    · grind
    · exact nomatch empty.symm.trans planted

theorem GrowsTo.reached (grows : GrowsTo domain decode words words' root target new) {path : List Idx} {node : Node}
    (hin : domain path) (hr : walk decode words' root path = some node) :
    walk decode words root path = some node ∨ node ∈ new := by
  rcases grows path hin with old | ⟨_, _, child, mem, planted⟩
  · exact .inl (old.symm.trans hr)
  · grind

theorem Plants.growsTo [DecidableEq Node] [DecidableEq Idx] {node child : Node} {i : Idx} {path : List Idx}
    (plants : Plants decode words words' node child i)
    (closed : ∀ i path, domain (i :: path) → domain path) (unshared : Unshared domain decode words root)
    (fresh : ∀ path, domain path → walk decode words root path ≠ some child) (hin : domain (i :: path))
    (hr : walk decode words root path = some node) :
    GrowsTo domain decode words words' root (i :: path) [child] := by
  intro path' hin'
  rw [plants.walk_eq closed unshared fresh hin hr hin']
  split
  case isTrue h =>
    have miss : walk decode words root (i :: path) = none := by
      rw [walk, hr, Option.bind_some, plants.empty]
    exact .inr ⟨h ▸ miss, h ▸ List.suffix_rfl, child, .head _, rfl⟩
  case isFalse => exact .inl rfl

end

end RosKernel.Library
