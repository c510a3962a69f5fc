import RosKernel.Library.TreeLinks

/-! Trees that pointers hold, seen from a node on the inside.

The pointers below the focus hold a tree and the pointers around it hold a context; what
rotations and relinkings do is stated at the focus.
-/

set_option autoImplicit false

namespace RosKernel.Library

open RbTree List

variable {α : Type} {links links' : Links α} {context : List (RbFrame α)}

namespace Links

/-- The pointers below `parent` hold the tree. -/
def Holds (links : Links α) : Option α → RbTree α → Prop
  | _, leaf => True
  | parent, node red left key right =>
    (links.red key = red ∧ links.parent key = parent ∧ links.child .left key = left.root ∧
      links.child .right key = right.root) ∧
      links.Holds (some key) left ∧ links.Holds (some key) right

/-- The pointers from the root down to the hole hold the context. -/
def Around (links : Links α) : Option α → List (RbFrame α) → Prop
  | hole, [] => links.root = hole
  | hole, frame :: rest =>
    (links.red frame.key = frame.red ∧ links.parent frame.key = parentOf rest ∧
      links.child frame.side frame.key = hole ∧ links.child frame.side.other frame.key = frame.sibling.root) ∧
      links.Holds (some frame.key) frame.sibling ∧ links.Around (some frame.key) rest

structure Focus (links : Links α) (context : List (RbFrame α)) (tree : RbTree α) : Prop where
  holds : links.Holds (parentOf context) tree
  around : links.Around tree.root context
  nodup : (tree.inorder ++ keysAround context).Nodup

@[simp] theorem holds_leaf (parent : Option α) : links.Holds parent leaf := trivial

theorem holds_join {side : Side} {red : Bool} {near far : RbTree α} {key : α} {parent : Option α} :
    links.Holds parent (join side red near key far) ↔
      (links.red key = red ∧ links.parent key = parent ∧ links.child side key = near.root ∧
        links.child side.other key = far.root) ∧
        links.Holds (some key) near ∧ links.Holds (some key) far := by
  cases side with
  | left => simp only [join, Holds, Side.other]
  | right =>
    simp only [join, Holds, Side.other]
    tauto

theorem Holds.congr {parent : Option α} {tree : RbTree α} (holds : links.Holds parent tree)
    (agree : ∀ key ∈ tree.inorder, links'.red key = links.red key ∧
      (∀ side, links'.child side key = links.child side key) ∧ links'.parent key = links.parent key) :
    links'.Holds parent tree := by
  induction tree generalizing parent with
  | leaf => trivial
  | node red left key right ihLeft ihRight =>
    obtain ⟨⟨isRed, isParent, leftChild, rightChild⟩, leftHolds, rightHolds⟩ := holds
    obtain ⟨redSame, childSame, parentSame⟩ := agree key (by simp [inorder])
    exact ⟨⟨redSame.trans isRed, parentSame.trans isParent, (childSame _).trans leftChild,
        (childSame _).trans rightChild⟩,
      ihLeft leftHolds fun other mem => agree other (by simp [inorder, mem]),
      ihRight rightHolds fun other mem => agree other (by simp [inorder, mem])⟩

theorem Holds.move [DecidableEq α] {parent parent' : Option α} {tree : RbTree α} (holds : links.Holds parent tree)
    (nodup : tree.inorder.Nodup)
    (agree : ∀ key ∈ tree.inorder, links'.red key = links.red key ∧
      (∀ side, links'.child side key = links.child side key) ∧
      links'.parent key = if tree.root = some key then parent' else links.parent key) :
    links'.Holds parent' tree := by
  cases tree with
  | leaf => trivial
  | node red left key right =>
    obtain ⟨⟨isRed, _, leftChild, rightChild⟩, leftHolds, rightHolds⟩ := holds
    obtain ⟨redSame, childSame, moved⟩ := agree key (by simp [inorder])
    simp only [inorder, nodup_append, nodup_cons, mem_cons] at nodup
    obtain ⟨_, ⟨keyRight, _⟩, apart⟩ := nodup
    have below : ∀ other ∈ (node red left key right).inorder, other ≠ key →
        links'.red other = links.red other ∧ (∀ side, links'.child side other = links.child side other) ∧
          links'.parent other = links.parent other := by
      intro other mem ne
      obtain ⟨redOther, childOther, parentOther⟩ := agree other mem
      rw [if_neg (by simpa [RbTree.root] using ne.symm)] at parentOther
      exact ⟨redOther, childOther, parentOther⟩
    refine ⟨⟨redSame.trans isRed, ?_, (childSame _).trans leftChild, (childSame _).trans rightChild⟩, ?_, ?_⟩
    · simpa [RbTree.root] using moved
    · apply leftHolds.congr
      intro other mem
      exact below other (by simp [inorder, mem]) fun eq => apart other mem key (.inl rfl) eq
    · apply rightHolds.congr
      intro other mem
      exact below other (by simp [inorder, mem]) fun eq => keyRight (eq ▸ mem)

theorem Around.congr {hole : Option α} (around : links.Around hole context) (root : links'.root = links.root)
    (agree : ∀ key ∈ keysAround context, links'.red key = links.red key ∧
      (∀ side, links'.child side key = links.child side key) ∧ links'.parent key = links.parent key) :
    links'.Around hole context := by
  induction context generalizing hole with
  | nil => exact root.trans around
  | cons frame rest ih =>
    obtain ⟨⟨isRed, isParent, isHole, isSibling⟩, sibling, above⟩ := around
    obtain ⟨redSame, childSame, parentSame⟩ := agree frame.key (.head _)
    refine ⟨⟨redSame.trans isRed, parentSame.trans isParent, (childSame _).trans isHole,
      (childSame _).trans isSibling⟩, ?_, ?_⟩
    · apply sibling.congr
      intro key mem
      exact agree key (.tail _ (mem_append_left _ mem))
    · apply ih above
      intro key mem
      exact agree key (.tail _ (mem_append_right _ mem))

theorem focus_fill {frame : RbFrame α} {tree : RbTree α} :
    links.Focus context (frame.fill tree) ↔ links.Focus (frame :: context) tree := by
  have perm := (inorder_plug_perm context (frame.fill tree)).symm.trans (inorder_plug_perm (frame :: context) tree)
  constructor
  · rintro ⟨holds, around, nodup⟩
    obtain ⟨node, near, far⟩ := holds_join.mp holds
    rw [RbFrame.fill, root_join] at around
    exact ⟨near, ⟨node, far, around⟩, perm.nodup_iff.mp nodup⟩
  · rintro ⟨holds, ⟨node, sibling, above⟩, nodup⟩
    exact ⟨holds_join.mpr ⟨node, holds, sibling⟩, by rwa [RbFrame.fill, root_join], perm.nodup_iff.mpr nodup⟩

theorem focus_plug {tree : RbTree α} : links.Focus context tree ↔ links.Focus [] (plug context tree) := by
  induction context generalizing tree with
  | nil => rfl
  | cons frame rest ih => exact focus_fill.symm.trans ih

section

variable [DecidableEq α]

/-- Write a pointer where the context leaves a hole. -/
def fillHole (links : Links α) : List (RbFrame α) → Option α → Links α
  | [], target => links.setRoot target
  | frame :: _, target => links.setChild frame.side frame.key target

@[simp] theorem parent_fillHole (target : Option α) : (links.fillHole context target).parent = links.parent := by
  cases context <;> rfl

@[simp] theorem red_fillHole (target : Option α) : (links.fillHole context target).red = links.red := by
  cases context <;> rfl

theorem child_fillHole {target : Option α} {key : α} (notMem : key ∉ keysAround context) (side : Side) :
    (links.fillHole context target).child side key = links.child side key := by
  cases context with
  | nil => rfl
  | cons frame rest =>
    have ne : key ≠ frame.key := fun eq => notMem (eq ▸ .head _)
    simp [fillHole, ne]

theorem Around.fillHole {hole target : Option α} (around : links.Around hole context)
    (nodup : (keysAround context).Nodup) : (links.fillHole context target).Around target context := by
  cases context with
  | nil => rfl
  | cons frame rest =>
    obtain ⟨⟨isRed, isParent, _, isSibling⟩, sibling, above⟩ := around
    simp only [keysAround, nodup_cons, mem_append, not_or] at nodup
    obtain ⟨⟨notSibling, notAbove⟩, _⟩ := nodup
    have apart : ∀ key, key ≠ frame.key → ∀ side,
        (links.fillHole (frame :: rest) target).child side key = links.child side key := by
      intro key ne side
      simp [Links.fillHole, ne]
    refine ⟨⟨isRed, isParent, by simp [Links.fillHole], by simp [Links.fillHole, isSibling]⟩, ?_, ?_⟩
    · apply sibling.congr
      intro key mem
      exact ⟨rfl, apart key (fun eq => notSibling (eq ▸ mem)), rfl⟩
    · have root : (links.fillHole (frame :: rest) target).root = links.root := rfl
      apply above.congr root
      intro key mem
      exact ⟨rfl, apart key (fun eq => notAbove (eq ▸ mem)), rfl⟩

theorem replaceChild_eq {side : Side} {old : α} {target : Option α} (around : links.Around (some old) context)
    (notMem : old ∉ keysAround context) :
    links.replaceChild side (parentOf context) old target = links.fillHole context target := by
  cases context with
  | nil => rfl
  | cons frame rest =>
    obtain ⟨⟨_, _, isHole, isSibling⟩, _, _⟩ := around
    have notSibling : frame.sibling.root ≠ some old := by
      intro isRoot
      exact notMem (.tail _ (mem_append_left _ (root_mem isRoot)))
    simp only [parentOf_cons, replaceChild, Links.fillHole]
    by_cases eq : frame.side = side
    · rw [← eq, isHole, if_pos rfl]
    · have across : side = frame.side.other := by
        revert eq
        cases side <;> cases frame.side <;> simp [Side.other]
      rw [across, isSibling, if_neg notSibling, Side.other_other]

theorem Focus.rotate {side : Side} {redX redY : Bool} {near inner far : RbTree α} {x y : α}
    (focus : links.Focus context (join side redX near x (join side redY inner y far))) :
    ∃ links', links.rotate side x = some links' ∧
      links'.Focus context (join side redY (join side redX near x inner) y far) := by
  obtain ⟨holds, around, nodup⟩ := focus
  obtain ⟨⟨xRed, xParent, xNear, xFar⟩, nearHolds, yHolds⟩ := holds_join.mp holds
  obtain ⟨⟨yRed, _, yInner, yFar⟩, innerHolds, farHolds⟩ := holds_join.mp yHolds
  rw [root_join] at around xFar
  have nodup' := nodup
  rw [← inorder_rotate side redX redX redY redY] at nodup'
  have perm := ((inorder_join_perm side redX near (join side redY inner y far) x).trans
    (((inorder_join_perm side redY inner far y).append_left near.inorder).cons x)).append_right (keysAround context)
  rw [perm.nodup_iff] at nodup
  simp only [cons_append, append_assoc, nodup_cons, nodup_append, mem_append, mem_cons,
    not_or] at nodup
  obtain ⟨⟨xNearNot, xy, xInnerNot, xFarNot, xAroundNot⟩, nearNodup, ⟨⟨yInnerNot, yFarNot, yAroundNot⟩, innerNodup,
    ⟨farNodup, aroundNodup, farAround⟩, innerApart⟩, nearApart⟩ := nodup
  have innerX : inner.root ≠ some x := fun isRoot => xInnerNot (root_mem isRoot)
  -- The ptrs pre the write at the hole.
  let lowered := ((links.setChild side.other x inner.root).setParentOf inner.root (some x)).setParent y (parentOf context)
  have loweredX : lowered.parent x = parentOf context := by
    simp [lowered, xy, innerX, xParent]
  have loweredAround : lowered.Around (some x) context := by
    apply around.congr (by simp [lowered])
    intro key mem
    have keyX : key ≠ x := fun eq => xAroundNot (eq ▸ mem)
    have keyY : key ≠ y := fun eq => yAroundNot (eq ▸ mem)
    have keyInner : inner.root ≠ some key := fun isRoot => innerApart key (root_mem isRoot) key (.inr mem) rfl
    simp [lowered, keyX, keyY, keyInner]
  let turned := ((lowered.fillHole context (some y)).setChild side y (some x)).setParent x (some y)
  have hole : ∀ key, key ∉ keysAround context → ∀ side',
      (lowered.fillHole context (some y)).child side' key = lowered.child side' key :=
    fun key keyAround side' => child_fillHole keyAround side'
  have eq : ∀ key, key ≠ x → key ≠ y → key ∉ keysAround context → turned.red key = links.red key ∧
      (∀ side', turned.child side' key = links.child side' key) ∧
      turned.parent key = if inner.root = some key then some x else links.parent key := by
    intro key keyX keyY keyAround
    simp [turned, hole key keyAround, lowered, keyX, keyY]
  refine ⟨turned, ?_, ?_, ?_, nodup'⟩
  · have written : lowered.replaceChild side (parentOf context) x (some y) = lowered.fillHole context (some y) :=
      replaceChild_eq loweredAround xAroundNot
    simp only [Links.rotate, xFar, yInner, child_setChild, Side.ne_other, false_and, if_false]
    simp only [parent_setParentOf, parent_setChild, innerX, if_false, xParent]
    change some (((lowered.replaceChild side (lowered.parent x) x (some y)).setChild side y (some x)).setParent x
      (some y)) = _
    rw [loweredX, written]
  · refine holds_join.mpr ⟨⟨?_, ?_, ?_, ?_⟩, holds_join.mpr ⟨⟨?_, ?_, ?_, ?_⟩, ?_, ?_⟩, ?_⟩
    · simp [turned, lowered, yRed]
    · simp [turned, lowered, Ne.symm xy]
    · simp [turned]
    · simp [turned, hole y yAroundNot, lowered, yFar, Ne.symm xy]
    · simp [turned, lowered, xRed]
    · simp [turned]
    · simp [turned, hole x xAroundNot, lowered, xNear, xy]
    · simp [turned, hole x xAroundNot, lowered]
    · apply nearHolds.congr
      intro key mem
      obtain ⟨redSame, childSame, parentSame⟩ := eq key (fun isX => xNearNot (isX ▸ mem))
        (nearApart key mem y (.inl rfl)) (fun keyAround => nearApart key mem key (.inr (.inr (.inr keyAround))) rfl)
      refine ⟨redSame, childSame, parentSame.trans (if_neg ?_)⟩
      exact fun isRoot => nearApart key mem key (.inr (.inl (root_mem isRoot))) rfl
    · apply innerHolds.move innerNodup
      intro key mem
      exact eq key (fun isX => xInnerNot (isX ▸ mem)) (fun isY => yInnerNot (isY ▸ mem))
        (fun keyAround => innerApart key mem key (.inr keyAround) rfl)
    · apply farHolds.congr
      intro key mem
      obtain ⟨redSame, childSame, parentSame⟩ := eq key (fun isX => xFarNot (isX ▸ mem))
        (fun isY => yFarNot (isY ▸ mem)) (fun keyAround => farAround key mem key keyAround rfl)
      refine ⟨redSame, childSame, parentSame.trans (if_neg ?_)⟩
      exact fun isRoot => innerApart key (root_mem isRoot) key (.inl mem) rfl
  · have root : turned.root = (lowered.fillHole context (some y)).root := rfl
    rw [root_join]
    refine (loweredAround.fillHole aroundNodup).congr root ?_
    intro key mem
    have keyX : key ≠ x := fun isX => xAroundNot (isX ▸ mem)
    have keyY : key ≠ y := fun isY => yAroundNot (isY ▸ mem)
    simp [turned, keyX, keyY]

theorem Focus.setRed {side : Side} {red : Bool} {near far : RbTree α} {key : α} (red' : Bool)
    (focus : links.Focus context (join side red near key far)) :
    (links.setRed key red').Focus context (join side red' near key far) := by
  obtain ⟨holds, around, nodup⟩ := focus
  obtain ⟨⟨_, isParent, isNear, isFar⟩, nearHolds, farHolds⟩ := holds_join.mp holds
  have perm := (inorder_join_perm side red near far key).append_right (keysAround context)
  have nodup' := perm.nodup_iff.mp nodup
  simp only [cons_append, nodup_cons, mem_append, not_or] at nodup'
  obtain ⟨⟨⟨keyNear, keyFar⟩, keyAround⟩, _⟩ := nodup'
  have eq : ∀ other, other ≠ key → (links.setRed key red').red other = links.red other := by
    intro other ne
    simp [ne]
  refine ⟨holds_join.mpr ⟨⟨by simp, isParent, isNear, isFar⟩, ?_, ?_⟩, ?_, ?_⟩
  · apply nearHolds.congr
    exact fun other mem => ⟨eq other (fun isKey => keyNear (isKey ▸ mem)), fun _ => rfl, rfl⟩
  · apply farHolds.congr
    exact fun other mem => ⟨eq other (fun isKey => keyFar (isKey ▸ mem)), fun _ => rfl, rfl⟩
  · rw [root_join] at around ⊢
    have root : (links.setRed key red').root = links.root := rfl
    apply around.congr root
    exact fun other mem => ⟨eq other (fun isKey => keyAround (isKey ▸ mem)), fun _ => rfl, rfl⟩
  · have recolored : (join side red' near key far).inorder = (join side red near key far).inorder := by
      cases side <;> rfl
    rwa [recolored]

end

/-- The pointers form a red-black tree with these nodes, from left to right. -/
def RedBlack (links : Links α) (nodes : List α) : Prop :=
  ∃ tree height, links.Focus [] tree ∧ tree.Balanced height ∧ tree.isRed = false ∧ tree.inorder = nodes

end Links

end RosKernel.Library
