import RosKernel.Library.TreeFocus

/-! Insertion into a red-black tree over pointers.

A red node may stand below a red parent while the loop runs. Each round either moves that
place two levels up or ends it with at most two rotations; neither changes the order.
-/

set_option autoImplicit false

namespace RosKernel.Library

open RbTree List

variable {α : Type} {links links' : Links α} {context rest : List (RbFrame α)}

theorem RbTree.join_other (side : Side) (red : Bool) (near far : RbTree α) (key : α) :
    join side.other red near key far = join side red far key near := by
  cases side <;> rfl

namespace Links

theorem Focus.side_eq [DecidableEq α] {frame : RbFrame α} {tree : RbTree α}
    (focus : links.Focus (frame :: context) tree) (differ : frame.sibling.root ≠ tree.root) :
    (if links.child .left frame.key = tree.root then Side.left else .right) = frame.side := by
  obtain ⟨side, red, key, sibling⟩ := frame
  obtain ⟨⟨_, _, isHole, isSibling⟩, _⟩ := focus.around
  cases side with
  | left => exact if_pos isHole
  | right =>
    have left : links.child .left key = sibling.root := isSibling
    exact if_neg (by rwa [left])

theorem Focus.cross {side : Side} {red : Bool} {near far : RbTree α} {key : α} :
    links.Focus (⟨side, red, key, far⟩ :: context) near ↔ links.Focus (⟨side.other, red, key, near⟩ :: context) far := by
  rw [← focus_fill, ← focus_fill]
  simp only [RbFrame.fill, join_other]

theorem Focus.sibling_ne {frame : RbFrame α} {tree : RbTree α} {key : α} (focus : links.Focus (frame :: context) tree)
    (isRoot : tree.root = some key) : frame.sibling.root ≠ some key := by
  intro isSibling
  exact disjoint_of_nodup_append focus.nodup (root_mem isRoot)
    (.tail _ (mem_append_left _ (root_mem isSibling)))

theorem Holds.descend {goLeft : α → Bool} {tree : RbTree α} {fuel : Nat}
    (holds : links.Holds (parentOf context) tree) (enough : tree.inorder.length ≤ fuel) (side : Side) (leftmost : Bool) :
    ∃ inner, plug inner leaf = tree ∧ (∀ frame ∈ inner, (frame.side = .left ↔ goLeft frame.key = true)) ∧
      links.descend goLeft fuel tree.root (parentOf context) side leftmost =
        some (parentOf (inner ++ context), (inner.head?.map RbFrame.side).getD side,
          leftmost && inner.all fun frame => frame.side = .left) := by
  induction tree generalizing context fuel side leftmost with
  | leaf =>
    refine ⟨[], rfl, fun _ mem => (nomatch mem), ?_⟩
    cases fuel <;> simp [Links.descend, RbTree.root]
  | node red left key right ihLeft ihRight =>
    obtain ⟨⟨_, _, leftChild, rightChild⟩, leftHolds, rightHolds⟩ := holds
    simp only [inorder, length_append, length_cons] at enough
    obtain ⟨fuel, rfl⟩ : ∃ more, fuel = more + 1 := ⟨fuel - 1, by omega⟩
    cases turn : goLeft key with
    | true =>
      have below : links.Holds (parentOf (⟨.left, red, key, right⟩ :: context)) left := leftHolds
      have lt : left.inorder.length ≤ fuel := by omega
      obtain ⟨inner, filled, sides, hf⟩ := ihLeft below lt .left leftmost
      refine ⟨inner ++ [⟨.left, red, key, right⟩], by rw [plug_append, filled]; rfl, ?_, ?_⟩
      · simpa [or_imp, forall_and, turn] using sides
      · change links.descend goLeft (fuel + 1) (some key) (parentOf context) side leftmost = _
        rw [parentOf_cons] at hf
        simp only [Links.descend, turn, if_true, leftChild, hf]
        cases inner <;> simp
    | false =>
      have below : links.Holds (parentOf (⟨.right, red, key, left⟩ :: context)) right := rightHolds
      have lt : right.inorder.length ≤ fuel := by omega
      obtain ⟨inner, filled, sides, hf⟩ := ihRight below lt .right false
      refine ⟨inner ++ [⟨.right, red, key, left⟩], by rw [plug_append, filled]; rfl, ?_, ?_⟩
      · simpa [or_imp, forall_and, turn] using sides
      · change links.descend goLeft (fuel + 1) (some key) (parentOf context) side leftmost = _
        rw [parentOf_cons] at hf
        simp only [Links.descend, turn, Bool.false_eq_true, if_false, rightChild, hf]
        cases inner <;> simp

section

variable {tree : RbTree α} {z : α} (focus : links.Focus context tree) (isRoot : tree.root = some z)
include focus isRoot

theorem Focus.parent_eq : links.parent z = parentOf context := by
  cases tree with
  | leaf => exact nomatch isRoot
  | node red left key right =>
    obtain rfl : key = z := Option.some.inj isRoot
    exact focus.holds.1.2.1

theorem Focus.red_eq : links.red z = tree.isRed := by
  cases tree with
  | leaf => exact nomatch isRoot
  | node red left key right =>
    obtain rfl : key = z := Option.some.inj isRoot
    exact focus.holds.1.1

end

variable [DecidableEq α]

theorem Focus.blacken {tree : RbTree α} {top : α} (focus : links.Focus [] tree) (isRoot : tree.root = some top) :
    (links.setRed top false).Focus [] tree.blacken := by
  cases tree with
  | leaf => exact nomatch isRoot
  | node red left key right =>
    obtain rfl : key = top := Option.some.inj isRoot
    have seen : links.Focus [] (join .left red left key right) := focus
    exact seen.setRed false

theorem Focus.finish {tree : RbTree α} {height : Nat} {z : α} (focus : links.Focus context tree)
    (isRoot : tree.root = some z) (balanced : tree.Balanced height) (fits : Fits context height)
    (black : redParent context = false) (fuel : Nat) :
    ∃ links', links.insertFixup (fuel + 1) z = some links' ∧ links'.RedBlack (plug context tree).inorder := by
  have whole := focus_plug.mp focus
  have done : links.insertFixup (fuel + 1) z = links.root.map fun root => links.setRed root false := by
    have parent := focus.parent_eq isRoot
    unfold insertFixup
    cases context with
    | nil => rw [parent]; rfl
    | cons frame others =>
      have isBlack : links.red frame.key = false := focus.around.1.1.trans black
      rw [parent]
      simp [isBlack]
  obtain ⟨top, isTop⟩ : ∃ top, (plug context tree).root = some top := by
    cases eq : plug context tree with
    | leaf =>
      have empty := inorder_plug context tree
      have mem := root_mem isRoot
      rw [eq] at empty
      simp only [inorder, nil_eq, append_eq_nil_iff] at empty
      rw [empty.1.2] at mem
      cases mem
    | node red left key right => exact ⟨key, rfl⟩
  have rooted : links.root = some top := whole.around.trans isTop
  refine ⟨links.setRed top false, by rw [done, rooted]; rfl, (plug context tree).blacken, ?_⟩
  have painted : ∃ height', (plug context tree).blacken.Balanced height' := by
    cases context with
    | nil => exact ⟨_, balanced.blacken.choose_spec.1⟩
    | cons frame others =>
      obtain ⟨⟨height', wholeBalanced⟩, wholeBlack⟩ := fits.plug balanced
        (fun red => by rw [black] at red; cases red) (fun outermost => by cases outermost)
      exact ⟨height', by rwa [blacken_of_black wholeBlack]⟩
  obtain ⟨height', painted⟩ := painted
  exact ⟨height', whole.blacken isTop, painted, isRed_blacken _, inorder_blacken _⟩

section

variable {side : Side} {p g : α} {tree sibling uncle : RbTree α} {height : Nat}

theorem Focus.raise (focus : links.Focus (⟨side, true, p, sibling⟩ :: ⟨side, false, g, uncle⟩ :: rest) tree) :
    ∃ links', ((links.setRed p false).setRed g true).rotate side.other g = some links' ∧
      links'.Focus rest (join side false tree p (join side true sibling g uncle)) := by
  have lower := (focus_fill.mpr focus).setRed false
  have upper : (links.setRed p false).Focus rest (join side false (join side false tree p sibling) g uncle) :=
    focus_fill.mpr lower
  have painted := upper.setRed true
  rw [← join_other, ← join_other side false sibling tree] at painted
  obtain ⟨links', rotated, focus'⟩ := painted.rotate
  refine ⟨links', rotated, ?_⟩
  rw [join_other, join_other] at focus'
  exact focus'

theorem Focus.insertRotate {sideP : Side} {z : α} (isRoot : tree.root = some z)
    (focus : links.Focus (⟨sideP, true, p, sibling⟩ :: ⟨side, false, g, uncle⟩ :: rest) tree)
    (treeBalanced : tree.Balanced height) (treeRed : tree.isRed = true)
    (siblingBalanced : sibling.Balanced height) (siblingBlack : sibling.isRed = false)
    (uncleBalanced : uncle.Balanced height) (uncleBlack : uncle.isRed = false) :
    ∃ z' links' frame tree', links.insertRotate side z p = some (z', links') ∧ links'.Focus (frame :: rest) tree' ∧
      tree'.root = some z' ∧ tree'.Balanced height ∧ frame.red = false ∧ frame.sibling.Balanced height ∧
      (frame.fill tree').inorder =
        (RbFrame.fill ⟨side, false, g, uncle⟩ (RbFrame.fill ⟨sideP, true, p, sibling⟩ tree)).inorder := by
  by_cases outer : sideP = side
  · subst outer
    have notInner : links.child sideP.other p ≠ some z := by
      rw [focus.around.1.2.2.2]
      exact focus.sibling_ne isRoot
    have toP : links.parent z = some p := focus.parent_eq isRoot
    have toG : links.parent p = some g := focus.around.1.2.1
    obtain ⟨links', rotated, focus'⟩ := focus.raise
    refine ⟨z, links', ⟨sideP, false, p, join sideP true sibling g uncle⟩, tree, ?_, focus_fill.mp focus', isRoot,
      treeBalanced, rfl, by simp [siblingBlack, uncleBlack, siblingBalanced, uncleBalanced], ?_⟩
    · simp [Links.insertRotate, notInner, toP, toG, rotated]
    · exact (inorder_rotate sideP ..).symm
  · obtain rfl : sideP = side.other := by
      revert outer
      cases sideP <;> cases side <;> simp [Side.other]
    have nonempty : tree ≠ leaf := by
      intro eq
      rw [eq] at treeRed
      cases treeRed
    obtain ⟨red, near, key, far, rfl⟩ := exists_join side nonempty
    obtain rfl : red = true := by simpa using treeRed
    obtain rfl : key = z := by simpa using isRoot
    obtain ⟨⟨nearBlack, farBlack⟩, nearBalanced, farBalanced⟩ := (balanced_join_red ..).mp treeBalanced
    have isInner : links.child side.other p = some key := by
      rw [focus.around.1.2.2.1, root_join]
    -- The first rotation turns the case into the other one.
    have below := focus_fill.mpr focus
    simp only [RbFrame.fill, join_other] at below
    obtain ⟨turned, rotated, below⟩ := below.rotate
    have focus' : turned.Focus (⟨side, true, key, far⟩ :: ⟨side, false, g, uncle⟩ :: rest)
        (join side true sibling p near) := focus_fill.mp below
    have toP : turned.parent p = some key := focus'.parent_eq (root_join ..)
    have toG : turned.parent key = some g := focus'.around.1.2.1
    obtain ⟨links', raised, focus''⟩ := focus'.raise
    refine ⟨p, links', ⟨side, false, key, join side true far g uncle⟩, join side true sibling p near, ?_,
      focus_fill.mp focus'', root_join .., ?_, rfl, ?_, ?_⟩
    · simp [Links.insertRotate, isInner, rotated, toP, toG, raised]
    · simp [siblingBlack, nearBlack, siblingBalanced, nearBalanced]
    · simp [farBlack, uncleBlack, farBalanced, uncleBalanced]
    · cases side <;> simp [RbFrame.fill, join, inorder, Side.other]

end

theorem Focus.insertFixup {tree : RbTree α} {height fuel : Nat} {z : α} (focus : links.Focus context tree)
    (isRoot : tree.root = some z) (treeRed : tree.isRed = true) (balanced : tree.Balanced height)
    (fits : Fits context height) (enough : context.length < fuel) :
    ∃ links', links.insertFixup fuel z = some links' ∧ links'.RedBlack (plug context tree).inorder := by
  induction fuel generalizing links context tree height z with
  | zero => exact absurd enough (Nat.not_lt_zero _)
  | succ fuel ih =>
    cases parentRed : redParent context with
    | false => exact focus.finish isRoot balanced fits parentRed fuel
    | true =>
      match context, focus, fits, parentRed, enough with
      | ⟨sideP, red, p, sibling⟩ :: others, focus, fits, parentRed, enough =>
        obtain rfl : red = true := parentRed
        obtain ⟨siblingBalanced, ⟨siblingBlack, inner, above⟩, fits⟩ := fits
        match others, focus, inner, above, fits, enough with
        | ⟨side, red, g, uncle⟩ :: rest, focus, _, above, fits, enough =>
          obtain rfl : red = false := above
          obtain ⟨uncleBalanced, fits⟩ := fits
          replace uncleBalanced : uncle.Balanced height := uncleBalanced
          replace fits : Fits rest (height + 1) := by simpa using fits
          have toP : links.parent z = some p := focus.parent_eq isRoot
          have toG : links.parent p = some g := focus.around.1.2.1
          have pRed : links.red p = true := focus.around.1.1
          have upper := focus_fill.mpr focus
          have isSide : (if links.child .left g = some p then Side.left else .right) = side := by
            have seen := upper.side_eq (by rw [RbFrame.fill, root_join]; exact upper.sibling_ne (root_join ..))
            rwa [RbFrame.fill, root_join] at seen
          have isUncle : links.child side.other g = uncle.root := focus.around.2.2.1.2.2.2
          unfold Links.insertFixup
          simp only [toP, pRed, if_true, toG, isSide, isUncle]
          cases uncleRed : uncle.isRed with
          | false =>
            obtain ⟨z', turned, frame, tree', rotated, focus', isRoot', balanced', frameBlack, frameBalanced, order⟩ :=
              focus.insertRotate isRoot balanced treeRed siblingBalanced siblingBlack uncleBalanced uncleRed
            have fits' : Fits (frame :: rest) height := by
              simp [Fits, frameBlack, frameBalanced, fits]
            obtain ⟨fuel, rfl⟩ : ∃ more, fuel = more + 1 := ⟨fuel - 1, by simp only [length_cons] at enough; omega⟩
            obtain ⟨links', finished, redBlack⟩ := focus'.finish isRoot' balanced' fits' frameBlack fuel
            refine ⟨links', ?_, ?_⟩
            · cases root : uncle.root with
              | none => simp [rotated, finished]
              | some u =>
                have uBlack : links.red u = false := by
                  rw [(Focus.cross.mp upper).red_eq root, uncleRed]
                simp [uBlack, rotated, finished]
            · rwa [plug, inorder_plug_congr rest order] at redBlack
          | true =>
            have nonempty : uncle ≠ leaf := by
              intro eq
              rw [eq] at uncleRed
              cases uncleRed
            obtain ⟨red, near, u, far, rfl⟩ := exists_join .left nonempty
            obtain rfl : red = true := by simpa using uncleRed
            have uRed : links.red u = true := (Focus.cross.mp upper).red_eq (root_join ..) |>.trans (isRed_join ..)
            -- The parent and the uncle turn black, and the red place moves up to the grandparent.
            have paintedP : (links.setRed p false).Focus (⟨side, false, g, join .left true near u far⟩ :: rest)
                (join sideP false tree p sibling) := upper.setRed false
            have paintedU := Focus.cross.mpr ((Focus.cross.mp paintedP).setRed false)
            have painted : (((links.setRed p false).setRed u false).setRed g true).Focus rest
                (join side true (join sideP false tree p sibling) g (join .left false near u far)) :=
              (focus_fill.mpr paintedU).setRed true
            obtain ⟨⟨nearBlack, farBlack⟩, nearBalanced, farBalanced⟩ := (balanced_join_red ..).mp uncleBalanced
            obtain ⟨links', done, redBlack⟩ := ih painted (root_join ..) (isRed_join ..)
              (by simp [balanced, siblingBalanced, nearBalanced, farBalanced]) fits (by simp only [length_cons] at enough; omega)
            refine ⟨links', by simp [uRed, done], ?_⟩
            have order : (join side true (join sideP false tree p sibling) g (join .left false near u far)).inorder =
                (RbFrame.fill ⟨side, false, g, join .left true near u far⟩
                  (RbFrame.fill ⟨sideP, true, p, sibling⟩ tree)).inorder := by
              cases side <;> cases sideP <;> rfl
            rwa [inorder_plug_congr rest order] at redBlack

theorem Focus.link {new : α} (focus : links.Focus context leaf) (fresh : new ∉ keysAround context) :
    (Links.fillHole ((((links.setParent new (parentOf context)).setChild .left new none).setChild .right new none).setRed
      new true) context (some new)).Focus context (join .left true leaf new leaf) := by
  obtain ⟨_, around, nodup⟩ := focus
  let cleared := (((links.setParent new (parentOf context)).setChild .left new none).setChild .right new none).setRed new true
  have others : ∀ key ∈ keysAround context, key ≠ new := fun key mem eq => fresh (eq ▸ mem)
  have aroundCleared : cleared.Around none context := by
    have root : cleared.root = links.root := rfl
    apply around.congr root
    intro key mem
    simp [cleared, others key mem]
  have kept : ∀ side, (cleared.fillHole context (some new)).child side new = cleared.child side new :=
    child_fillHole fresh
  refine ⟨holds_join.mpr ⟨⟨?_, ?_, ?_, ?_⟩, trivial, trivial⟩, ?_, by simpa [join, inorder] using ⟨fresh, nodup⟩⟩
  · simp
  · simp
  · rw [kept]
    simp [cleared, RbTree.root]
  · rw [kept]
    simp [cleared, RbTree.root, Side.other]
  · exact aroundCleared.fillHole nodup

/-- An insertion keeps the tree red-black, tells whether the new node is the first, and puts it between the
nodes that send it left and those that do not when the order of the nodes allows that. -/
theorem RedBlack.insert {nodes : List α} {goLeft : α → Bool} {fuel : Nat} {new : α} (tree : links.RedBlack nodes)
    (fresh : new ∉ nodes) (enough : nodes.length < fuel) :
    ∃ leftmost links' pre after, links.insert goLeft fuel new = some (leftmost, links') ∧ nodes = pre ++ after ∧
      links'.RedBlack (pre ++ new :: after) ∧ (leftmost = true ↔ pre = []) ∧
      ((nodes.Pairwise fun a b => goLeft a = true → goLeft b = true) →
        (∀ key ∈ pre, goLeft key = false) ∧ ∀ key ∈ after, goLeft key = true) := by
  obtain ⟨tree, height, focus, balanced, black, rfl⟩ := tree
  have top : links.Holds (parentOf []) tree := focus.holds
  obtain ⟨inner, rfl, sides, hf⟩ := top.descend (Nat.le_of_lt enough) .left true
  obtain ⟨height', fits, leafBalanced, _⟩ := Fits.of_plug balanced black
  obtain rfl : height' = 0 := (balanced_leaf _).mp leafBalanced
  have atLeaf : links.Focus inner leaf := focus_plug.mpr focus
  have order := inorder_plug inner (leaf : RbTree α)
  simp only [inorder, append_nil] at order
  have freshAround : new ∉ keysAround inner := by
    intro mem
    exact fresh ((inorder_plug_perm inner leaf).mem_iff.mpr (mem_append_right _ mem))
  have linked := atLeaf.link freshAround
  have short : inner.length < fuel := Nat.lt_of_le_of_lt (length_le_inorder inner leaf) enough
  obtain ⟨links', fixed, redBlack⟩ := linked.insertFixup (root_join ..) (isRed_join ..) (by simp [RbTree.isRed]) fits short
  have isRoot : links.root = (plug inner leaf).root := focus.around
  rw [append_nil, ← isRoot, Bool.true_and] at hf
  refine ⟨_, links', keysBefore inner, keysAfter inner, ?_, order, ?_, keysBefore_eq_nil.symm, ?_⟩
  · simp only [Links.insert, parentOf_nil] at hf ⊢
    rw [hf, Option.bind_some]
    cases inner with
    | nil => simp only [parentOf_nil, Links.fillHole] at fixed; simp [fixed]
    | cons frame rest => simp only [parentOf_cons, Links.fillHole] at fixed; simp [fixed]
  · rw [inorder_plug] at redBlack
    simpa [join, inorder] using redBlack
  · intro monotone
    rw [order] at monotone
    exact splits_of_sides sides monotone

end Links

end RosKernel.Library
