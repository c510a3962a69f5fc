import RosKernel.Library.RedBlack

/-! Red-black trees over parent and child pointers.

A null pointer is `none`. An operation has no result if it follows a null pointer or its
loops run longer than the fuel. The two mirror images of a rebalancing step are one step
with a side.
-/

set_option autoImplicit false

namespace RosKernel.Library

structure Links (α : Type) where
  root : Option α
  child : Side → α → Option α
  parent : α → Option α
  red : α → Bool

namespace Links

variable {α : Type}

def setRoot (links : Links α) (target : Option α) : Links α := { links with root := target }

variable [DecidableEq α]

def setChild (links : Links α) (side : Side) (key : α) (target : Option α) : Links α := { links with
  child := Function.update links.child side (Function.update (links.child side) key target) }

def setParent (links : Links α) (key : α) (target : Option α) : Links α := { links with
  parent := Function.update links.parent key target }

def setRed (links : Links α) (key : α) (red : Bool) : Links α := { links with
  red := Function.update links.red key red }

section

variable (links : Links α) (side side' : Side) (key other : α) (target : Option α) (red : Bool)

@[simp] theorem root_setChild : (links.setChild side key target).root = links.root := rfl

@[simp] theorem parent_setChild : (links.setChild side key target).parent = links.parent := rfl

@[simp] theorem red_setChild : (links.setChild side key target).red = links.red := rfl

@[simp] theorem child_setChild : (links.setChild side key target).child side' other =
    if side' = side ∧ other = key then target else links.child side' other := by
  by_cases sameSide : side' = side
  · subst sameSide
    simp [setChild, Function.update_apply]
  · simp [setChild, sameSide]

@[simp] theorem root_setParent : (links.setParent key target).root = links.root := rfl

@[simp] theorem child_setParent : (links.setParent key target).child = links.child := rfl

@[simp] theorem red_setParent : (links.setParent key target).red = links.red := rfl

@[simp] theorem parent_setParent : (links.setParent key target).parent other =
    if other = key then target else links.parent other := by
  simp [setParent, Function.update_apply]

@[simp] theorem root_setRed : (links.setRed key red).root = links.root := rfl

@[simp] theorem child_setRed : (links.setRed key red).child = links.child := rfl

@[simp] theorem parent_setRed : (links.setRed key red).parent = links.parent := rfl

@[simp] theorem red_setRed : (links.setRed key red).red other = if other = key then red else links.red other := by
  simp [setRed, Function.update_apply]

end

/-- `p && p->red` -/
def redAt (links : Links α) : Option α → Bool
  | none => false
  | some key => links.red key

/-- `if (p) p->parent = target;` -/
def setParentOf (links : Links α) (key target : Option α) : Links α :=
  match key with
  | none => links
  | some key => links.setParent key target

def blackenAt (links : Links α) : Option α → Links α
  | none => links
  | some key => links.setRed key false

section

variable (links : Links α) (key target : Option α)
include links key target

@[simp] theorem root_setParentOf : (links.setParentOf key target).root = links.root := by
  cases key <;> rfl

@[simp] theorem child_setParentOf : (links.setParentOf key target).child = links.child := by
  cases key <;> rfl

@[simp] theorem red_setParentOf : (links.setParentOf key target).red = links.red := by
  cases key <;> rfl

@[simp] theorem parent_setParentOf (other : α) :
    (links.setParentOf key target).parent other = if key = some other then target else links.parent other := by
  cases key with
  | none => simp [setParentOf]
  | some key => simp [setParentOf, eq_comm]

end

variable (links : Links α)

/-- Write `target` where the parent of `old` names `old`. -/
def replaceChild (side : Side) (parent : Option α) (old : α) (target : Option α) : Links α :=
  match parent with
  | none => links.setRoot target
  | some key =>
    if links.child side key = some old then links.setChild side key target
    else links.setChild side.other key target

/-- The child across goes up, `x` goes down on the given side. -/
def rotate (side : Side) (links : Links α) (x : α) : Option (Links α) :=
  match links.child side.other x with
  | none => none
  | some y =>
    let links := links.setChild side.other x (links.child side y)
    let links := links.setParentOf (links.child side y) (some x)
    let links := links.setParent y (links.parent x)
    let links := links.replaceChild side (links.parent x) x (some y)
    let links := links.setChild side y (some x)
    some (links.setParent x (some y))

/-- The way down from `cur`; the last component says whether it has only gone left. -/
def descend (links : Links α) (goLeft : α → Bool) :
    Nat → Option α → Option α → Side → Bool → Option (Option α × Side × Bool)
  | _, none, parent, side, leftmost => some (parent, side, leftmost)
  | 0, some _, _, _, _ => none
  | fuel + 1, some key, _, _, leftmost =>
    if goLeft key then links.descend goLeft fuel (links.child .left key) (some key) .left leftmost
    else links.descend goLeft fuel (links.child .right key) (some key) .right false

/-- A round of the loop where the uncle is black; `side` is the side of `p` below `g`. The
node that the next round looks at is returned too. -/
def insertRotate (side : Side) (z p : α) : Option (α × Links α) :=
  let turned := if links.child side.other p = some z then (links.rotate side p).map (p, ·) else some (z, links)
  turned.bind fun (z, links) =>
    (links.parent z).bind fun p =>
      let links := links.setRed p false
      (links.parent p).bind fun g =>
        ((links.setRed g true).rotate side.other g).map (z, ·)

def insertFixup (links : Links α) : Nat → α → Option (Links α)
  | 0, _ => none
  | fuel + 1, z =>
    match links.parent z with
    | some p =>
      if links.red p then
        match links.parent p with
        | none => none
        | some g =>
          let side := if links.child .left g = some p then Side.left else Side.right
          match links.child side.other g with
          | some uncle =>
            if links.red uncle then
              (((links.setRed p false).setRed uncle false).setRed g true).insertFixup fuel g
            else (links.insertRotate side z p).bind fun (z, links) => links.insertFixup fuel z
          | none => (links.insertRotate side z p).bind fun (z, links) => links.insertFixup fuel z
      else links.root.map fun root => links.setRed root false
    | none => links.root.map fun root => links.setRed root false

/-- Link `new` in at the end of the way down. -/
def insert (goLeft : α → Bool) (fuel : Nat) (new : α) : Option (Bool × Links α) :=
  (links.descend goLeft fuel links.root none .left true).bind fun (parent, side, leftmost) =>
    let links := (((links.setParent new parent).setChild .left new none).setChild .right new none).setRed new true
    let links := match parent with
      | none => links.setRoot (some new)
      | some key => links.setChild side key (some new)
    (links.insertFixup fuel new).map (leftmost, ·)

/-- `while (cur->left) cur = cur->left;` -/
def minimum (links : Links α) : Nat → α → Option α
  | 0, _ => none
  | fuel + 1, key =>
    match links.child .left key with
    | none => some key
    | some next => links.minimum fuel next

def transplant (u : α) (v : Option α) : Links α :=
  let links := links.replaceChild .left (links.parent u) u v
  links.setParentOf v (links.parent u)

/-- A round of the loop from the point where the sibling `w` is black: the next `x` and its parent. -/
def eraseRebalance (side : Side) (xParent w : α) : Option (Option α × Option α × Links α) :=
  if !links.redAt (links.child side w) && !links.redAt (links.child side.other w) then
    let links := links.setRed w true
    some (some xParent, links.parent xParent, links)
  else
    let turned := if links.redAt (links.child side.other w) then some links
      else (((links.blackenAt (links.child side w)).setRed w true).rotate side.other w)
    turned.bind fun links =>
      (links.child side.other xParent).bind fun w =>
        let links := (links.setRed w (links.red xParent)).setRed xParent false
        ((links.blackenAt (links.child side.other w)).rotate side xParent).map fun links =>
          (links.root, some xParent, links)

def eraseFixup (links : Links α) : Nat → Option α → Option α → Option (Links α)
  | 0, _, _ => none
  | fuel + 1, x, xParent =>
    if x ≠ links.root ∧ links.redAt x = false then
      xParent.bind fun xParent =>
        let side := if links.child .left xParent = x then Side.left else Side.right
        (links.child side.other xParent).bind fun w =>
          let turned := if links.red w then
              (((links.setRed w false).setRed xParent true).rotate side xParent).bind fun links =>
                (links.child side.other xParent).map (·, links)
            else some (w, links)
          turned.bind fun (w, links) =>
            (links.eraseRebalance side xParent w).bind fun (x, xParent, links) => links.eraseFixup fuel x xParent
    else some (links.blackenAt x)

/-- The node `y` takes the place of `z`, with its left child and its colour. -/
def replaceNode (z y : α) : Option (Links α) :=
  let links := links.transplant z (some y)
  let links := links.setChild .left y (links.child .left z)
  (links.child .left y).map fun left =>
    let links := links.setParent left (some y)
    links.setRed y (links.red z)

/-- A node with two children: its successor takes its place. The colour that goes missing, and
where, are returned too. -/
def eraseInner (fuel : Nat) (z right : α) : Option (Bool × Option α × Option α × Links α) :=
  (links.minimum fuel right).bind fun y =>
    let yRed := links.red y
    let x := links.child .right y
    let moved := if links.parent y = some z then some (some y, links)
      else
        let xParent := links.parent y
        let links := links.transplant y x
        let links := links.setChild .right y (links.child .right z)
        (links.child .right y).map fun right => (xParent, links.setParent right (some y))
    moved.bind fun (xParent, links) => (links.replaceNode z y).map fun links => (yRed, x, xParent, links)

/-- The first half of a removal: the colour that goes missing, and where. -/
def detach (fuel : Nat) (z : α) : Option (Bool × Option α × Option α × Links α) :=
  match links.child .left z with
  | none => some (links.red z, links.child .right z, links.parent z, links.transplant z (links.child .right z))
  | some left =>
    match links.child .right z with
    | none => some (links.red z, some left, links.parent z, links.transplant z (some left))
    | some right => links.eraseInner fuel z right

def erase (fuel : Nat) (z : α) : Option (Links α) :=
  (links.detach fuel z).bind fun (yRed, x, xParent, links) =>
    (if yRed then some links else links.eraseFixup fuel x xParent).map fun links =>
      ((links.setChild .left z none).setChild .right z none).setParent z none

end Links

end RosKernel.Library
