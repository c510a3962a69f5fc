import Mathlib.Data.List.Perm.Basic
import Mathlib.Data.List.Nodup


/-! Red-black trees, whole and with a hole.

Left and right are treated alike: a node is built from the child on a given side and the
one across. A context is the path from a hole up to the root, innermost frame first.
-/

set_option autoImplicit false

namespace RosKernel.Library

open List

inductive Side where
  | left
  | right
  deriving DecidableEq, Repr

def Side.other : Side → Side
  | .left => .right
  | .right => .left

@[simp] theorem Side.other_other (side : Side) : side.other.other = side := by
  cases side <;> rfl

@[simp] theorem Side.other_ne (side : Side) : side.other ≠ side := by
  cases side <;> decide

@[simp] theorem Side.ne_other (side : Side) : side ≠ side.other := by
  cases side <;> decide

inductive RbTree (α : Type) where
  | leaf
  | node (red : Bool) (left : RbTree α) (key : α) (right : RbTree α)
  deriving DecidableEq

structure RbFrame (α : Type) where
  side : Side
  red : Bool
  key : α
  sibling : RbTree α

variable {α : Type}

namespace RbTree

def isRed : RbTree α → Bool
  | leaf => false
  | node red _ _ _ => red

def root : RbTree α → Option α
  | leaf => none
  | node _ _ key _ => some key

def inorder : RbTree α → List α
  | leaf => []
  | node _ left key right => left.inorder ++ key :: right.inorder

/-- The node with `near` on the given side and `far` across. -/
def join (side : Side) (red : Bool) (near : RbTree α) (key : α) (far : RbTree α) : RbTree α :=
  match side with
  | .left => node red near key far
  | .right => node red far key near

/-- All paths down meet the same number of black nodes, and red nodes have black children. -/
def Balanced : RbTree α → Nat → Prop
  | leaf, height => height = 0
  | node true left _ right, height =>
    (left.isRed = false ∧ right.isRed = false) ∧ left.Balanced height ∧ right.Balanced height
  | node false _ _ _, 0 => False
  | node false left _ right, height + 1 => left.Balanced height ∧ right.Balanced height

@[simp] theorem isRed_join (side : Side) (red : Bool) (near far : RbTree α) (key : α) :
    (join side red near key far).isRed = red := by
  cases side <;> rfl

@[simp] theorem root_join (side : Side) (red : Bool) (near far : RbTree α) (key : α) :
    (join side red near key far).root = some key := by
  cases side <;> rfl

@[simp] theorem balanced_leaf (height : Nat) : (leaf : RbTree α).Balanced height ↔ height = 0 := by
  cases height <;> simp [Balanced]

section

variable (side : Side) (near far : RbTree α) (key : α)
include side near far key

@[simp] theorem balanced_join_red (height : Nat) : (join side true near key far).Balanced height ↔
      (near.isRed = false ∧ far.isRed = false) ∧ near.Balanced height ∧ far.Balanced height := by
  cases side <;> cases height <;> simp [join, Balanced, and_comm, and_assoc]

@[simp] theorem balanced_join_black (height : Nat) :
    (join side false near key far).Balanced (height + 1) ↔ near.Balanced height ∧ far.Balanced height := by
  cases side <;> simp [join, Balanced, and_comm]

@[simp] theorem not_balanced_join_zero : ¬ (join side false near key far).Balanced 0 := by
  cases side <;> simp [join, Balanced]

end

theorem exists_join (side : Side) {tree : RbTree α} (nonempty : tree ≠ leaf) :
    ∃ red near key far, tree = join side red near key far := by
  cases tree with
  | leaf => exact absurd rfl nonempty
  | node red left key right =>
    cases side with
    | left => exact ⟨red, left, key, right, rfl⟩
    | right => exact ⟨red, right, key, left, rfl⟩

theorem ne_leaf_of_balanced {tree : RbTree α} {height : Nat} (balanced : tree.Balanced (height + 1)) :
    tree ≠ leaf := by
  intro eq
  rw [eq, balanced_leaf] at balanced
  exact Nat.succ_ne_zero _ balanced

theorem inorder_join_perm (side : Side) (red : Bool) (near far : RbTree α) (key : α) :
    (join side red near key far).inorder.Perm (key :: (near.inorder ++ far.inorder)) := by
  cases side with
  | left => exact perm_middle
  | right => exact perm_middle.trans (perm_append_comm.cons key)

theorem inorder_rotate (side : Side) (red red' upper upper' : Bool) (near inner far : RbTree α) (x y : α) :
    (join side upper (join side red near x inner) y far).inorder =
      (join side red' near x (join side upper' inner y far)).inorder := by
  cases side <;> simp [join, inorder]

theorem root_mem {tree : RbTree α} {key : α} (isRoot : tree.root = some key) : key ∈ tree.inorder := by
  cases tree with
  | leaf => exact nomatch isRoot
  | node red left top right =>
    obtain rfl : top = key := Option.some.inj isRoot
    simp [inorder]

/-- A tree whose root is black keeps its order and its balance when the root turns black. -/
def blacken : RbTree α → RbTree α
  | leaf => leaf
  | node _ left key right => node false left key right

@[simp] theorem inorder_blacken (tree : RbTree α) : tree.blacken.inorder = tree.inorder := by
  cases tree <;> rfl

@[simp] theorem isRed_blacken (tree : RbTree α) : tree.blacken.isRed = false := by
  cases tree <;> rfl

theorem blacken_of_black {tree : RbTree α} (black : tree.isRed = false) : tree.blacken = tree := by
  cases tree with
  | leaf => rfl
  | node red left key right =>
    have isBlack : red = false := black
    rw [isBlack]
    rfl

theorem Balanced.blacken {tree : RbTree α} {height : Nat} (balanced : tree.Balanced height) :
    ∃ height', tree.blacken.Balanced height' ∧ (tree.isRed = true → height' = height + 1) ∧
      (tree.isRed = false → height' = height) := by
  cases tree with
  | leaf => exact ⟨height, balanced, fun red => (nomatch red), fun _ => rfl⟩
  | node red left key right =>
    cases red with
    | false => exact ⟨height, balanced, fun red => (nomatch red), fun _ => rfl⟩
    | true =>
      have parts : left.Balanced height ∧ right.Balanced height := by
        cases height <;> exact balanced.2
      exact ⟨height + 1, parts, fun _ => rfl, fun black => nomatch black⟩

end RbTree

open RbTree

namespace RbFrame

def fill (frame : RbFrame α) (tree : RbTree α) : RbTree α :=
  join frame.side frame.red tree frame.key frame.sibling

end RbFrame

/-- The tree around a hole, with the hole filled. -/
def plug : List (RbFrame α) → RbTree α → RbTree α
  | [], tree => tree
  | frame :: rest, tree => plug rest (frame.fill tree)

def parentOf (context : List (RbFrame α)) : Option α := context.head?.map RbFrame.key

def redParent : List (RbFrame α) → Bool
  | [] => false
  | frame :: _ => frame.red

def keysAround : List (RbFrame α) → List α
  | [] => []
  | frame :: rest => frame.key :: (frame.sibling.inorder ++ keysAround rest)

def keysBefore : List (RbFrame α) → List α
  | [] => []
  | frame :: rest =>
    match frame.side with
    | .left => keysBefore rest
    | .right => keysBefore rest ++ (frame.sibling.inorder ++ [frame.key])

def keysAfter : List (RbFrame α) → List α
  | [] => []
  | frame :: rest =>
    match frame.side with
    | .left => frame.key :: frame.sibling.inorder ++ keysAfter rest
    | .right => keysAfter rest

/-- A black tree of the given height may stand in the hole. The root is black. -/
def Fits : List (RbFrame α) → Nat → Prop
  | [], _ => True
  | frame :: rest, height => frame.sibling.Balanced height ∧
    if frame.red then (frame.sibling.isRed = false ∧ rest ≠ [] ∧ redParent rest = false) ∧ Fits rest height
    else Fits rest (height + 1)

@[simp] theorem parentOf_nil : parentOf ([] : List (RbFrame α)) = none := rfl

@[simp] theorem parentOf_cons (frame : RbFrame α) (rest : List (RbFrame α)) :
    parentOf (frame :: rest) = some frame.key := rfl

theorem inorder_plug (ctx : List (RbFrame α)) (tree : RbTree α) :
    (plug ctx tree).inorder = keysBefore ctx ++ tree.inorder ++ keysAfter ctx := by
  induction ctx generalizing tree with
  | nil => simp [plug, keysBefore, keysAfter]
  | cons frame rest ih =>
    obtain ⟨side, red, key, sibling⟩ := frame
    cases side <;> simp [plug, ih, keysBefore, keysAfter, RbFrame.fill, join, inorder]

theorem inorder_plug_perm (ctx : List (RbFrame α)) (tree : RbTree α) :
    (plug ctx tree).inorder.Perm (tree.inorder ++ keysAround ctx) := by
  induction ctx generalizing tree with
  | nil => simp [plug, keysAround]
  | cons frame rest ih =>
    obtain ⟨side, red, key, sibling⟩ := frame
    refine (ih _).trans ?_
    cases side with
    | left => simp [keysAround, RbFrame.fill, join, inorder]
    | right =>
      simp only [keysAround, RbFrame.fill, join, inorder, append_assoc, cons_append]
      -- The hole moves in front of its sibling and of the node mid them.
      exact (perm_append_comm_assoc sibling.inorder (key :: tree.inorder) (keysAround rest)).trans
        ((@List.perm_middle _ _ tree.inorder _).symm.trans (by simp))

theorem keysAround_append (inner outer : List (RbFrame α)) :
    keysAround (inner ++ outer) = keysAround inner ++ keysAround outer := by
  induction inner with
  | nil => rfl
  | cons frame rest ih => simp [keysAround, ih]

theorem length_le_inorder (ctx : List (RbFrame α)) (tree : RbTree α) :
    ctx.length ≤ (plug ctx tree).inorder.length := by
  have around : ctx.length ≤ (keysAround ctx).length := by
    induction ctx with
    | nil => exact Nat.le_refl _
    | cons frame rest ih =>
      simp only [keysAround, length_cons, length_append]
      omega
  rw [(inorder_plug_perm ctx tree).length_eq, length_append]
  exact Nat.le_trans around (Nat.le_add_left ..)

theorem inorder_plug_congr {tree other : RbTree α} (ctx : List (RbFrame α))
    (eq : tree.inorder = other.inorder) : (plug ctx tree).inorder = (plug ctx other).inorder := by
  rw [inorder_plug, inorder_plug, eq]

theorem plug_append (inner outer : List (RbFrame α)) (tree : RbTree α) :
    plug (inner ++ outer) tree = plug outer (plug inner tree) := by
  induction inner generalizing tree with
  | nil => rfl
  | cons frame rest ih => exact ih _

theorem exists_plug {tree : RbTree α} {key : α} (mem : key ∈ tree.inorder) :
    ∃ ctx red left right, tree = plug ctx (node red left key right) := by
  induction tree with
  | leaf => exact nomatch mem
  | node red left top right ihLeft ihRight =>
    simp only [inorder, mem_append, mem_cons] at mem
    rcases mem with inLeft | rfl | inRight
    · obtain ⟨ctx, red', left', right', rfl⟩ := ihLeft inLeft
      exact ⟨ctx ++ [⟨.left, red, top, right⟩], red', left', right', by rw [plug_append]; rfl⟩
    · exact ⟨[], red, left, right, rfl⟩
    · obtain ⟨ctx, red', left', right', rfl⟩ := ihRight inRight
      exact ⟨ctx ++ [⟨.right, red, top, left⟩], red', left', right', by rw [plug_append]; rfl⟩

theorem Fits.plug {ctx : List (RbFrame α)} {height : Nat} {tree : RbTree α} (fits : Fits ctx height)
    (balanced : tree.Balanced height) (colors : redParent ctx = true → tree.isRed = false)
    (rooted : ctx = [] → tree.isRed = false) :
    (∃ height', (plug ctx tree).Balanced height') ∧ (plug ctx tree).isRed = false := by
  induction ctx generalizing tree height with
  | nil => exact ⟨⟨height, balanced⟩, rooted rfl⟩
  | cons frame rest ih =>
    obtain ⟨side, red, key, sibling⟩ := frame
    obtain ⟨siblingBalanced, above⟩ := fits
    cases red with
    | true =>
      obtain ⟨⟨siblingBlack, inner, above⟩, fits⟩ := above
      apply ih fits
      · exact (balanced_join_red ..).mpr ⟨⟨colors rfl, siblingBlack⟩, balanced, siblingBalanced⟩
      · grind
      · exact fun outermost => absurd outermost inner
    | false =>
      apply ih above
      · exact (balanced_join_black ..).mpr ⟨balanced, siblingBalanced⟩
      · exact fun _ => isRed_join ..
      · exact fun _ => isRed_join ..

theorem Fits.rename {inner outer : List (RbFrame α)} {side : Side} {red : Bool} {key key' : α} {sibling : RbTree α}
    {height : Nat} (fits : Fits (inner ++ ⟨side, red, key, sibling⟩ :: outer) height) :
    Fits (inner ++ ⟨side, red, key', sibling⟩ :: outer) height := by
  induction inner generalizing height with
  | nil => exact fits
  | cons frame rest ih =>
    obtain ⟨balanced, above⟩ := fits
    refine ⟨balanced, ?_⟩
    cases color : frame.red with
    | false =>
      simp only [color, Bool.false_eq_true, if_false] at above ⊢
      exact ih above
    | true =>
      simp only [color, if_true] at above ⊢
      obtain ⟨⟨siblingBlack, _, outerBlack⟩, above⟩ := above
      refine ⟨⟨siblingBlack, by simp, ?_⟩, ih above⟩
      cases rest with
      | nil => exact outerBlack
      | cons _ _ => exact outerBlack

theorem Fits.of_plug {ctx : List (RbFrame α)} {tree : RbTree α} {height : Nat}
    (balanced : (Library.plug ctx tree).Balanced height) (black : (Library.plug ctx tree).isRed = false) :
    ∃ inner, Fits ctx inner ∧ tree.Balanced inner ∧ (redParent ctx = true → tree.isRed = false) ∧
      (ctx = [] → tree.isRed = false) := by
  induction ctx generalizing tree with
  | nil => exact ⟨height, trivial, balanced, fun red => (nomatch red), fun _ => black⟩
  | cons frame rest ih =>
    obtain ⟨inner, fits, filled, colors, rooted⟩ := ih balanced black
    obtain ⟨side, red, key, sibling⟩ := frame
    cases red with
    | true =>
      obtain ⟨⟨treeBlack, siblingBlack⟩, treeBalanced, siblingBalanced⟩ := (balanced_join_red ..).mp filled
      refine ⟨inner, ⟨siblingBalanced, ⟨siblingBlack, ?_, ?_⟩, fits⟩, treeBalanced, fun _ => treeBlack,
        fun outermost => nomatch outermost⟩
      · intro outermost
        exact absurd (rooted outermost) (by simp [RbFrame.fill])
      · cases parent : redParent rest with
        | false => rfl
        | true => exact absurd (colors parent) (by simp [RbFrame.fill])
    | false =>
      cases inner with
      | zero => exact (not_balanced_join_zero _ _ _ _ filled).elim
      | succ inner =>
        obtain ⟨treeBalanced, siblingBalanced⟩ := (balanced_join_black ..).mp filled
        exact ⟨inner, ⟨siblingBalanced, fits⟩, treeBalanced, fun red => (nomatch red), fun outermost => nomatch outermost⟩

theorem keysBefore_eq_nil {inner : List (RbFrame α)} :
    keysBefore inner = [] ↔ (inner.all fun frame => frame.side = .left) = true := by
  induction inner with
  | nil => simp [keysBefore]
  | cons frame rest ih =>
    cases side : frame.side <;> simp [keysBefore, side, ih]

theorem splits_of_sides {goLeft : α → Bool} {inner : List (RbFrame α)}
    (sides : ∀ frame ∈ inner, (frame.side = .left ↔ goLeft frame.key = true))
    (monotone : (keysBefore inner ++ keysAfter inner).Pairwise fun a b => goLeft a = true → goLeft b = true) :
    (∀ key ∈ keysBefore inner, goLeft key = false) ∧ ∀ key ∈ keysAfter inner, goLeft key = true := by
  induction inner with
  | nil => simp [keysBefore, keysAfter]
  | cons frame rest ih =>
    obtain ⟨sideHere, sidesAbove⟩ := forall_mem_cons.mp sides
    cases side : frame.side with
    | left =>
      have turn : goLeft frame.key = true := sideHere.mp side
      simp only [keysBefore, keysAfter, side, cons_append, pairwise_append, pairwise_cons,
        mem_append, mem_cons] at monotone ⊢
      obtain ⟨pre, ⟨fromKey, _, after, _⟩, ne⟩ := monotone
      obtain ⟨passed, coming⟩ := ih sidesAbove (pairwise_append.mpr
        ⟨pre, after, fun a memberA b memberB => ne a memberA b (.inr (.inr memberB))⟩)
      refine ⟨passed, ?_⟩
      rintro key (rfl | inSibling | inAfter)
      · exact turn
      · exact fromKey key (.inl inSibling) turn
      · exact coming key inAfter
    | right =>
      have turn : goLeft frame.key = false := by
        cases eq : goLeft frame.key with
        | false => rfl
        | true => exact absurd (sideHere.mpr eq) (by simp [side])
      simp only [keysBefore, keysAfter, side, append_assoc, pairwise_append, mem_append,
        mem_singleton] at monotone ⊢
      obtain ⟨pre, ⟨_, ⟨_, after, toAfter⟩, siblingTo⟩, ne⟩ := monotone
      obtain ⟨passed, coming⟩ := ih sidesAbove (pairwise_append.mpr
        ⟨pre, after, fun a memberA b memberB => ne a memberA b (.inr (.inr memberB))⟩)
      refine ⟨?_, coming⟩
      rintro key (inBefore | inSibling | rfl)
      · exact passed key inBefore
      · cases eq : goLeft key with
        | false => rfl
        | true =>
          have passedKey := siblingTo key inSibling frame.key (.inl rfl) eq
          rw [turn] at passedKey
          exact nomatch passedKey
      · exact turn

end RosKernel.Library
