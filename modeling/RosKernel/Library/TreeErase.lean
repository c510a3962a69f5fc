import RosKernel.Library.TreeInsert

/-! Removal from a red-black tree over pointers.

Where a black node was taken out, the tree in the hole is one black node short. Each round
moves the shortage up or ends it with rotations; the sibling of a short tree is never a leaf.
-/

set_option autoImplicit false

namespace RosKernel.Library

open RbTree List

variable {α : Type} {links links' : Links α} {context rest : List (RbFrame α)}

/-- Painting the root black gives the tree height `height + 1`, or it is black with height `height`. -/
def RbTree.Short (tree : RbTree α) (height : Nat) : Prop :=
  if tree.isRed then tree.blacken.Balanced (height + 1) else tree.Balanced height

theorem RbTree.Short.blacken {tree : RbTree α} {height : Nat} (short : tree.Short height) :
    ∃ height', tree.blacken.Balanced height' := by
  unfold Short at short
  split at short
  · exact ⟨_, short⟩
  · next black => exact ⟨height, by rwa [blacken_of_black (by simpa using black)]⟩

theorem RbTree.Balanced.short {tree : RbTree α} {height : Nat} (balanced : tree.Balanced height) :
    tree.Short height := by
  unfold Short
  split
  · next red =>
    obtain ⟨height', painted, higher, _⟩ := balanced.blacken
    rwa [higher red] at painted
  · exact balanced

namespace Links

theorem Around.root_mem {hole : Option α} {frame : RbFrame α} (around : links.Around hole (frame :: context)) :
    ∃ top ∈ keysAround (frame :: context), links.root = some top := by
  induction context generalizing hole frame with
  | nil => exact ⟨frame.key, .head _, around.2.2⟩
  | cons next rest ih =>
    obtain ⟨top, mem, isRoot⟩ := ih around.2.2
    exact ⟨top, .tail _ (mem_append_right _ mem), isRoot⟩

theorem Focus.ne_root {frame : RbFrame α} {tree : RbTree α} (focus : links.Focus (frame :: context) tree) :
    tree.root ≠ links.root := by
  obtain ⟨top, mem, isRoot⟩ := focus.around.root_mem
  intro eq
  exact disjoint_of_nodup_append focus.nodup (RbTree.root_mem (eq.trans isRoot)) mem

theorem Focus.redAt_eq {tree : RbTree α} (focus : links.Focus context tree) : links.redAt tree.root = tree.isRed := by
  cases tree with
  | leaf => rfl
  | node red left key right => exact focus.holds.1.1

variable [DecidableEq α]

/-! ## The end of the loop -/

theorem Focus.blackenAt {tree : RbTree α} (focus : links.Focus context tree) :
    (links.blackenAt tree.root).Focus context tree.blacken := by
  cases tree with
  | leaf => exact focus
  | node red left key right =>
    have seen : links.Focus context (join .left red left key right) := focus
    exact seen.setRed false

theorem Focus.eraseFinish {tree : RbTree α} {height : Nat} (focus : links.Focus context tree)
    (short : tree.Short height) (fits : Fits context (height + 1)) (last : context = [] ∨ tree.isRed = true)
    (fuel : Nat) :
    ∃ links', links.eraseFixup (fuel + 1) tree.root (parentOf context) = some links' ∧
      links'.RedBlack (plug context tree).inorder := by
  have stops : ¬ (tree.root ≠ links.root ∧ links.redAt tree.root = false) := by
    rintro ⟨inner, black⟩
    rcases last with rfl | red
    · exact inner focus.around.symm
    · rw [focus.redAt_eq, red] at black
      exact nomatch black
  have painted := focus.blackenAt
  have order : (plug context tree.blacken).inorder = (plug context tree).inorder :=
    inorder_plug_congr context (inorder_blacken tree)
  refine ⟨_, by rw [eraseFixup, if_neg stops], plug context tree.blacken, ?_⟩
  rcases last with rfl | red
  · obtain ⟨height', balanced⟩ := short.blacken
    exact ⟨height', focus_plug.mp painted, balanced, isRed_blacken _, order⟩
  · rw [Short, if_pos red] at short
    obtain ⟨⟨height', balanced⟩, black⟩ := fits.plug short (fun _ => isRed_blacken _) (fun _ => isRed_blacken _)
    exact ⟨height', focus_plug.mp painted, balanced, black, order⟩

theorem Focus.eraseStop {tree : RbTree α} {height : Nat} (focus : links.Focus [] tree) (balanced : tree.Balanced height)
    (black : tree.isRed = false) (fuel : Nat) (xParent : Option α) :
    ∃ links', links.eraseFixup (fuel + 1) links.root xParent = some links' ∧ links'.RedBlack tree.inorder := by
  have painted := focus.blackenAt
  rw [blacken_of_black black] at painted
  refine ⟨_, by rw [eraseFixup, if_neg (fun stops => stops.1 rfl)], tree, height, ?_, balanced, black, rfl⟩
  have isRoot : links.root = tree.root := focus.around
  rwa [isRoot]

/-! ## A round with a black sibling -/

section

variable {side : Side} {red : Bool} {p w : α} {tree near far : RbTree α} {height : Nat}

theorem Focus.eraseRotate (focus : links.Focus (⟨side, red, p, join side false near w far⟩ :: rest) tree) :
    ∃ links', (((links.setRed w (links.red p)).setRed p false).blackenAt far.root).rotate side p = some links' ∧
      links'.Focus rest (join side red (join side false tree p near) w far.blacken) := by
  have pRed : links.red p = red := focus.around.1.1
  rw [pRed]
  have paintedW : (links.setRed w red).Focus (⟨side.other, red, p, tree⟩ :: rest) (join side red near w far) :=
    (Focus.cross.mp focus).setRed red
  have paintedP : ((links.setRed w red).setRed p false).Focus rest
      (join side false tree p (join side red near w far)) := (focus_fill.mpr (Focus.cross.mpr paintedW)).setRed false
  have atFar : ((links.setRed w red).setRed p false).Focus
      (⟨side.other, red, w, near⟩ :: ⟨side.other, false, p, tree⟩ :: rest) far :=
    Focus.cross.mp (focus_fill.mp (Focus.cross.mp (focus_fill.mp paintedP)))
  have paintedFar : (((links.setRed w red).setRed p false).blackenAt far.root).Focus rest
      (join side false tree p (join side red near w far.blacken)) :=
    focus_fill.mpr (Focus.cross.mpr (focus_fill.mpr (Focus.cross.mpr atFar.blackenAt)))
  exact paintedFar.rotate

/-- What a round with a black sibling does. Either the shortage moves to the parent, or the tree is in order
and the loop is told to look at the root. -/
inductive Rebalanced (rest : List (RbFrame α)) (whole : RbTree α) (links : Links α) : Option α → Option α → Prop where
  | moved {tree : RbTree α} {height' : Nat} (focus : links.Focus rest tree) (short : tree.Short height')
      (fits : Fits rest (height' + 1)) (color : tree.isRed = whole.isRed) (order : tree.inorder = whole.inorder) :
      Rebalanced rest whole links tree.root (parentOf rest)
  | ended {tree : RbTree α} {height' : Nat} (xParent : Option α) (focus : links.Focus [] tree)
      (balanced : tree.Balanced height') (black : tree.isRed = false)
      (order : tree.inorder = (plug rest whole).inorder) : Rebalanced rest whole links links.root xParent

omit [DecidableEq α] in
theorem Rebalanced.of_rotate {whole : RbTree α} (xParent : Option α)
    (focus : links.Focus rest (join side red (join side false tree p near) w far.blacken))
    (balanced : tree.Balanced height) (nearBalanced : near.Balanced height) (farBalanced : far.Balanced height)
    (farRed : far.isRed = true) (fits : Fits (⟨side, red, p, join side false near w far⟩ :: rest) (height + 1))
    (order : (RbFrame.fill ⟨side, red, p, join side false near w far⟩ tree).inorder = whole.inorder) :
    Rebalanced rest whole links links.root xParent := by
  obtain ⟨height', farBlackened, higher, _⟩ := farBalanced.blacken
  obtain rfl := higher farRed
  have turned : (join side red (join side false tree p near) w far.blacken).inorder =
      (RbFrame.fill ⟨side, red, p, join side false near w far⟩ tree).inorder := by
    cases side <;> simp [RbFrame.fill, join, inorder]
  have whole : ∃ height', (plug rest (join side red (join side false tree p near) w far.blacken)).Balanced height' ∧
      (plug rest (join side red (join side false tree p near) w far.blacken)).isRed = false := by
    obtain ⟨_, above⟩ := fits
    cases red with
    | true =>
      obtain ⟨⟨_, inner, above⟩, fits⟩ := above
      obtain ⟨⟨height', balanced'⟩, black⟩ := fits.plug
        (by simp [balanced, nearBalanced, farBlackened] :
          (join side true (join side false tree p near) w far.blacken).Balanced (height + 1))
        (fun red => by rw [above] at red; cases red) (fun outermost => absurd outermost inner)
      exact ⟨height', balanced', black⟩
    | false =>
      replace above : Fits rest (height + 1 + 1) := above
      obtain ⟨⟨height', balanced'⟩, black⟩ := above.plug
        (by simp [balanced, nearBalanced, farBlackened] :
          (join side false (join side false tree p near) w far.blacken).Balanced (height + 1 + 1))
        (fun _ => isRed_join ..) (fun _ => isRed_join ..)
      exact ⟨height', balanced', black⟩
  obtain ⟨height', balanced', black⟩ := whole
  exact .ended xParent (focus_plug.mp focus) balanced' black (inorder_plug_congr rest (turned.trans order))

theorem Focus.eraseRebalance (focus : links.Focus (⟨side, red, p, join side false near w far⟩ :: rest) tree)
    (balanced : tree.Balanced height) (nearBalanced : near.Balanced height) (farBalanced : far.Balanced height)
    (fits : Fits (⟨side, red, p, join side false near w far⟩ :: rest) (height + 1)) :
    ∃ x xParent links', links.eraseRebalance side p w = some (x, xParent, links') ∧
      Rebalanced rest (RbFrame.fill ⟨side, red, p, join side false near w far⟩ tree) links' x xParent := by
  have atW : links.Focus (⟨side.other, red, p, tree⟩ :: rest) (join side false near w far) := Focus.cross.mp focus
  have atNear : links.Focus (⟨side, false, w, far⟩ :: ⟨side.other, red, p, tree⟩ :: rest) near := focus_fill.mp atW
  obtain ⟨⟨_, _, nearChild, farChild⟩, _⟩ := holds_join.mp atW.holds
  have nearRed : links.redAt (links.child side w) = near.isRed := by
    rw [nearChild]
    exact atNear.redAt_eq
  have farRed : links.redAt (links.child side.other w) = far.isRed := by
    rw [farChild]
    exact (Focus.cross.mp atNear).redAt_eq
  unfold Links.eraseRebalance
  rw [nearRed, farRed]
  cases farIs : far.isRed with
  | true =>
    have toW : links.child side.other p = some w := by
      rw [focus.around.1.2.2.2, root_join]
    obtain ⟨links', rotated, focus'⟩ := focus.eraseRotate
    refine ⟨links'.root, some p, links', ?_, .of_rotate (some p) focus' balanced nearBalanced farBalanced farIs fits rfl⟩
    simp [toW, farChild, rotated]
  | false =>
    cases nearIs : near.isRed with
    | false =>
      have painted : (links.setRed w true).Focus rest (join side red tree p (join side true near w far)) :=
        focus_fill.mpr (Focus.cross.mpr (atW.setRed true))
      have toParent : (links.setRed w true).parent p = parentOf rest := painted.parent_eq (root_join ..)
      have order : (join side red tree p (join side true near w far)).inorder =
          (RbFrame.fill ⟨side, red, p, join side false near w far⟩ tree).inorder := by
        cases side <;> rfl
      refine ⟨some p, parentOf rest, links.setRed w true, by simp [toParent], ?_⟩
      obtain ⟨_, above⟩ := fits
      cases red with
      | true =>
        obtain ⟨_, fits⟩ := above
        have short : (join side true tree p (join side true near w far)).Short height := by
          have painted : (join side true tree p (join side true near w far)).blacken =
              join side false tree p (join side true near w far) := by
            cases side <;> rfl
          simp [Short, painted, balanced, nearBalanced, farBalanced, nearIs, farIs]
        have top : (join side true tree p (join side true near w far)).root = some p := root_join ..
        rw [← top]
        exact .moved painted short fits (by simp [RbFrame.fill]) order
      | false =>
        replace above : Fits rest (height + 1 + 1) := above
        have short : (join side false tree p (join side true near w far)).Short (height + 1) := by
          simp [Short, balanced, nearBalanced, farBalanced, nearIs, farIs]
        have top : (join side false tree p (join side true near w far)).root = some p := root_join ..
        rw [← top]
        exact .moved painted short above (by simp [RbFrame.fill]) order
    | true =>
      have nonempty : near ≠ leaf := by
        intro eq
        rw [eq] at nearIs
        cases nearIs
      obtain ⟨nearColor, inner, k, outer, rfl⟩ := exists_join side.other nonempty
      obtain rfl : nearColor = true := by simpa using nearIs
      obtain ⟨⟨innerBlack, outerBlack⟩, innerBalanced, outerBalanced⟩ := (balanced_join_red ..).mp nearBalanced
      have toNear : links.child side w = some k := by
        rw [nearChild, root_join]
      -- The sibling goes down, its red child takes its place and becomes black.
      have paintedK : (links.setRed k false).Focus (⟨side.other, red, p, tree⟩ :: rest)
          (join side false (join side.other false inner k outer) w far) := focus_fill.mpr (atNear.setRed false)
      have paintedW := paintedK.setRed true
      rw [← join_other] at paintedW
      obtain ⟨turned, rotated, focus'⟩ := paintedW.rotate
      rw [join_other, join_other] at focus'
      have toK : turned.child side.other p = some k := by
        rw [(Focus.cross.mpr focus').around.1.2.2.2, root_join]
      have farOfK : turned.child side.other k = (join side true inner w far).root :=
        (holds_join.mp focus'.holds).1.2.2.2
      obtain ⟨links', raised, focus''⟩ := (Focus.cross.mpr focus').eraseRotate
      have fits' : Fits (⟨side, red, p, join side false outer k (join side true inner w far)⟩ :: rest) (height + 1) := by
        simpa [Fits, innerBlack, outerBlack, farIs, innerBalanced, outerBalanced, farBalanced] using fits
      refine ⟨links'.root, some p, links', ?_, ?_⟩
      · rw [root_join] at raised
        simpa [toNear, Links.blackenAt, rotated, toK, farOfK] using raised
      · have order : (RbFrame.fill ⟨side, red, p, join side false outer k (join side true inner w far)⟩ tree).inorder =
            (RbFrame.fill ⟨side, red, p, join side false (join side.other true inner k outer) w far⟩ tree).inorder := by
          cases side <;> simp [RbFrame.fill, join, inorder, Side.other]
        refine .of_rotate (some p) focus'' balanced outerBalanced ?_ (isRed_join ..) fits' order
        simp [innerBlack, farIs, innerBalanced, farBalanced]

end

/-! ## The loop -/

theorem Focus.eraseFixup {tree : RbTree α} {height fuel : Nat} (focus : links.Focus context tree)
    (short : tree.Short height) (fits : Fits context (height + 1)) (enough : context.length < fuel) :
    ∃ links', links.eraseFixup fuel tree.root (parentOf context) = some links' ∧
      links'.RedBlack (plug context tree).inorder := by
  induction context generalizing links tree height fuel with
  | nil =>
    obtain ⟨fuel, rfl⟩ : ∃ more, fuel = more + 1 := ⟨fuel - 1, by rw [length_nil] at enough; omega⟩
    exact focus.eraseFinish short fits (.inl rfl) fuel
  | cons frame rest ih =>
    obtain ⟨fuel, rfl⟩ : ∃ more, fuel = more + 2 := ⟨fuel - 2, by simp only [length_cons] at enough; omega⟩
    cases color : tree.isRed with
    | true => exact focus.eraseFinish short fits (.inr color) (fuel + 1)
    | false =>
      have balanced : tree.Balanced height := by simpa [Short, color] using short
      obtain ⟨side, red, p, sibling⟩ := frame
      have siblingBalanced : sibling.Balanced (height + 1) := fits.1
      obtain ⟨siblingRed, near, w, far, rfl⟩ := exists_join side (ne_leaf_of_balanced siblingBalanced)
      have goes : tree.root ≠ links.root ∧ links.redAt tree.root = false := ⟨focus.ne_root, focus.redAt_eq.trans color⟩
      have toW : links.child side.other p = some w := by
        rw [focus.around.1.2.2.2, root_join]
      have differ : (join side siblingRed near w far).root ≠ tree.root := fun eq =>
        focus.sibling_ne (eq.symm.trans (root_join ..)) (root_join ..)
      have isSide : (if links.child .left p = tree.root then Side.left else .right) = side := focus.side_eq differ
      have wRed : links.red w = siblingRed := ((Focus.cross.mp focus).red_eq (root_join ..)).trans (isRed_join ..)
      rw [Links.eraseFixup, if_pos goes, parentOf_cons, Option.bind_some]
      simp only [isSide, toW, Option.bind_some, wRed]
      cases siblingRed with
      | false =>
        obtain ⟨nearBalanced, farBalanced⟩ := (balanced_join_black ..).mp siblingBalanced
        obtain ⟨x, xParent, links', done, outcome⟩ := focus.eraseRebalance balanced nearBalanced farBalanced fits
        simp only [Bool.false_eq_true, if_false, Option.bind_some, done]
        cases outcome with
        | moved focus' short' fits' _ order =>
          have deeper : rest.length < fuel + 1 := by
            simp only [length_cons] at enough
            omega
          obtain ⟨links'', finished, redBlack⟩ := ih focus' short' fits' deeper
          exact ⟨links'', finished, by rwa [inorder_plug_congr rest order] at redBlack⟩
        | ended _ focus' balanced' black' order =>
          obtain ⟨links'', finished, redBlack⟩ := focus'.eraseStop balanced' black' fuel xParent
          exact ⟨links'', finished, by rwa [order] at redBlack⟩
      | true =>
        obtain ⟨⟨nearBlack, farBlack⟩, nearBalanced, farBalanced⟩ := (balanced_join_red ..).mp siblingBalanced
        obtain ⟨rfl, above⟩ : red = false ∧ Fits rest (height + 1 + 1) := by
          simpa [Fits, siblingBalanced, nearBlack, farBlack, nearBalanced, farBalanced] using fits
        -- A rotation gives the short tree a red parent and a black sibling, so the shortage ends there.
        have paintedW : (links.setRed w false).Focus (⟨side, false, p, join side false near w far⟩ :: rest) tree :=
          Focus.cross.mpr ((Focus.cross.mp focus).setRed false)
        obtain ⟨turned, rotated, lowered⟩ := ((focus_fill.mpr paintedW).setRed true).rotate
        have focus' : turned.Focus (⟨side, true, p, near⟩ :: ⟨side, false, w, far⟩ :: rest) tree :=
          focus_fill.mp (focus_fill.mp lowered)
        obtain ⟨nearRed, near', w', far', rfl⟩ := exists_join side (ne_leaf_of_balanced nearBalanced)
        obtain rfl : nearRed = false := by simpa using nearBlack
        obtain ⟨nearBalanced', farBalanced'⟩ := (balanced_join_black ..).mp nearBalanced
        have toW' : turned.child side.other p = some w' := by
          rw [focus'.around.1.2.2.2, root_join]
        have fits' : Fits (⟨side, true, p, join side false near' w' far'⟩ :: ⟨side, false, w, far⟩ :: rest) (height + 1) := by
          simp [Fits, nearBalanced', farBalanced', farBalanced, above, redParent]
        obtain ⟨x, xParent, links', done, outcome⟩ := focus'.eraseRebalance balanced nearBalanced' farBalanced' fits'
        simp only [if_true, rotated, Option.bind_some, toW', Option.map_some, done]
        have eq : (RbFrame.fill ⟨side, false, w, far⟩
            (RbFrame.fill ⟨side, true, p, join side false near' w' far'⟩ tree)).inorder =
            (RbFrame.fill ⟨side, false, p, join side true (join side false near' w' far') w far⟩ tree).inorder :=
          inorder_rotate side ..
        cases outcome with
        | moved focus'' short'' fits'' color' order =>
          obtain ⟨links'', finished, redBlack⟩ := focus''.eraseFinish short'' fits''
            (.inr (color'.trans (by simp [RbFrame.fill]))) fuel
          rw [inorder_plug_congr _ order, plug, inorder_plug_congr rest eq] at redBlack
          exact ⟨links'', finished, redBlack⟩
        | ended _ focus'' balanced'' black'' order =>
          obtain ⟨links'', finished, redBlack⟩ := focus''.eraseStop balanced'' black'' fuel xParent
          rw [order, plug, inorder_plug_congr rest eq] at redBlack
          exact ⟨links'', finished, redBlack⟩

/-! ## Taking the node out -/

theorem Focus.transplant {tree sub : RbTree α} {z : α} {parent : Option α} (focus : links.Focus context tree)
    (isRoot : tree.root = some z) (holds : links.Holds parent sub) (nodup : (sub.inorder ++ keysAround context).Nodup) :
    (links.transplant z sub.root).Focus context sub := by
  have around := focus.around
  rw [isRoot] at around
  have zAround : z ∉ keysAround context := fun mem =>
    disjoint_of_nodup_append focus.nodup (RbTree.root_mem isRoot) mem
  have written : links.replaceChild .left (parentOf context) z sub.root = links.fillHole context sub.root :=
    replaceChild_eq around zAround
  have moved : links.transplant z sub.root = (links.fillHole context sub.root).setParentOf sub.root (parentOf context) := by
    simp only [Links.transplant, focus.parent_eq isRoot, written, parent_fillHole]
  rw [moved]
  obtain ⟨subNodup, aroundNodup, ne⟩ := nodup_append.mp nodup
  refine ⟨?_, ?_, nodup⟩
  · apply holds.move subNodup
    intro key mem
    have keyAround : key ∉ keysAround context := fun hin => ne key mem key hin rfl
    simp only [red_setParentOf, red_fillHole, child_setParentOf, parent_setParentOf, parent_fillHole, true_and, and_true]
    exact fun side => child_fillHole keyAround side
  · have root : ((links.fillHole context sub.root).setParentOf sub.root (parentOf context)).root =
        (links.fillHole context sub.root).root := root_setParentOf ..
    refine (around.fillHole aroundNodup).congr root ?_
    intro key mem
    have notRoot : sub.root ≠ some key := fun isSub => ne key (RbTree.root_mem isSub) key mem rfl
    simp [notRoot]

omit [DecidableEq α] in
theorem Holds.minimum {tree : RbTree α} {top : α} {parent : Option α} {fuel : Nat} (holds : links.Holds parent tree)
    (isRoot : tree.root = some top) (enough : tree.inorder.length ≤ fuel) :
    ∃ inner red y right, tree = plug inner (.node red leaf y right) ∧ keysBefore inner = [] ∧
      links.minimum fuel top = some y := by
  induction tree generalizing top parent fuel with
  | leaf => exact nomatch isRoot
  | node red left key right ihLeft _ =>
    obtain rfl : key = top := Option.some.inj isRoot
    obtain ⟨⟨_, _, leftChild, _⟩, leftHolds, _⟩ := holds
    simp only [inorder, length_append, length_cons] at enough
    obtain ⟨fuel, rfl⟩ : ∃ more, fuel = more + 1 := ⟨fuel - 1, by omega⟩
    rw [Links.minimum, leftChild]
    cases left with
    | leaf => exact ⟨[], red, key, right, rfl, rfl, rfl⟩
    | node redLeft left' next right' =>
      have lt : (RbTree.node redLeft left' next right').inorder.length ≤ fuel := by omega
      obtain ⟨inner, red', y, yRight, eq, leftmost, hf⟩ := ihLeft leftHolds rfl lt
      refine ⟨inner ++ [⟨.left, red, key, right⟩], red', y, yRight, by rw [plug_append, ← eq]; rfl, ?_, hf⟩
      rw [keysBefore_eq_nil] at leftmost ⊢
      simpa using leftmost

omit [DecidableEq α] in
theorem focus_append {inner outer : List (RbFrame α)} {tree : RbTree α} :
    links.Focus (inner ++ outer) tree ↔ links.Focus outer (plug inner tree) := by
  rw [focus_plug, plug_append]
  exact focus_plug.symm

theorem Around.replaceNode {left right : RbTree α} {y z l : α} (around : links.Around (some z) context)
    (toParent : links.parent z = parentOf context) (leftChild : links.child .left z = some l)
    (isLeft : left.root = some l) (leftHolds : links.Holds (some z) left) (rightHolds : links.Holds (some y) right)
    (rightChild : links.child .right y = right.root)
    (nodup : (y :: z :: (left.inorder ++ (right.inorder ++ keysAround context))).Nodup) :
    ∃ links', links.replaceNode z y = some links' ∧ links'.Focus context (.node (links.red z) left y right) := by
  simp only [nodup_cons, mem_cons, mem_append, not_or] at nodup
  obtain ⟨⟨yz, yLeft, yRight, yAround⟩, ⟨zLeft, zRight, zAround⟩, nodup⟩ := nodup
  have whole : (y :: (left.inorder ++ (right.inorder ++ keysAround context))).Nodup := by
    simp [yLeft, yRight, yAround, nodup]
  obtain ⟨leftNodup, nodup, leftApart⟩ := nodup_append.mp nodup
  obtain ⟨rightNodup, aroundNodup, rightApart⟩ := nodup_append.mp nodup
  simp only [mem_append] at leftApart
  have written : links.replaceChild .left (parentOf context) z (some y) = links.fillHole context (some y) :=
    replaceChild_eq around zAround
  have moved : links.transplant z (some y) = (links.fillHole context (some y)).setParent y (parentOf context) := by
    simp only [Links.transplant, toParent, written, parent_fillHole, setParentOf]
  have hole : ∀ key, key ∉ keysAround context → ∀ side,
      (links.fillHole context (some y)).child side key = links.child side key :=
    fun key keyAround side => child_fillHole keyAround side
  let placed := ((((links.fillHole context (some y)).setParent y (parentOf context)).setChild .left y (some l)).setParent l
    (some y)).setRed y (links.red z)
  have ly : l ≠ y := fun eq => yLeft (eq ▸ RbTree.root_mem isLeft)
  have eq : ∀ key, key ≠ y → placed.red key = links.red key ∧
      (key ∉ keysAround context → ∀ side, placed.child side key = links.child side key) ∧
      placed.parent key = if left.root = some key then some y else links.parent key := by
    intro key keyY
    refine ⟨by simp [placed, keyY], fun keyAround side => ?_, ?_⟩
    · simp [placed, keyY, hole key keyAround]
    · simp [placed, keyY, isLeft, eq_comm]
  refine ⟨placed, ?_, ⟨⟨?_, ?_, ?_, ?_⟩, ?_, ?_⟩, ?_, ?_⟩
  · simp [Links.replaceNode, moved, hole z zAround, leftChild, placed]
  · simp [placed]
  · simp [placed, ly.symm]
  · simp [placed, isLeft]
  · simp [placed, hole y yAround, rightChild]
  · apply leftHolds.move leftNodup
    intro key mem
    obtain ⟨redSame, childSame, parentSame⟩ := eq key fun isY => yLeft (isY ▸ mem)
    exact ⟨redSame, childSame fun keyAround => leftApart key mem key (.inr keyAround) rfl, parentSame⟩
  · apply rightHolds.congr
    intro key mem
    obtain ⟨redSame, childSame, parentSame⟩ := eq key fun isY => yRight (isY ▸ mem)
    refine ⟨redSame, childSame fun keyAround => rightApart key mem key keyAround rfl, parentSame.trans (if_neg ?_)⟩
    exact fun isRoot => leftApart key (RbTree.root_mem isRoot) key (.inl mem) rfl
  · have root : placed.root = (links.fillHole context (some y)).root := rfl
    have isRoot : (RbTree.node (links.red z) left y right).root = some y := rfl
    rw [isRoot]
    refine (around.fillHole aroundNodup).congr root ?_
    intro key mem
    have keyY : key ≠ y := fun isY => yAround (isY ▸ mem)
    have keyLeft : left.root ≠ some key := fun isRoot => leftApart key (RbTree.root_mem isRoot) key (.inr mem) rfl
    obtain ⟨redSame, _, parentSame⟩ := eq key keyY
    refine ⟨redSame.trans (by simp), fun side => by simp [placed, keyY], ?_⟩
    rw [parentSame, if_neg keyLeft, parent_fillHole]
  · simpa only [inorder, append_assoc, cons_append] using nodup_middle.mpr whole

theorem Focus.eraseInner {red : Bool} {left right : RbTree α} {z top : α} {fuel : Nat}
    (focus : links.Focus context (.node red left z right)) (leftNonempty : left ≠ leaf) (isTop : right.root = some top)
    (enough : right.inorder.length ≤ fuel) :
    ∃ inner yRed y yRight links', right = plug inner (.node yRed leaf y yRight) ∧ keysBefore inner = [] ∧
      links.eraseInner fuel z top =
        some (yRed, yRight.root, parentOf (inner ++ ⟨.right, red, y, left⟩ :: context), links') ∧
      links'.Focus (inner ++ ⟨.right, red, y, left⟩ :: context) yRight := by
  obtain ⟨⟨zRed, toParent, leftChild, rightChild⟩, leftHolds, rightHolds⟩ := focus.holds
  obtain ⟨inner, yRed, y, yRight, rfl, leftmost, hf⟩ := rightHolds.minimum isTop enough
  have atY : links.Focus (inner ++ ⟨.right, red, z, left⟩ :: context) (.node yRed leaf y yRight) :=
    focus_append.mpr (focus_fill.mp focus)
  obtain ⟨l, isLeft⟩ : ∃ l, left.root = some l := by
    cases left with
    | leaf => exact absurd rfl leftNonempty
    | node _ _ l _ => exact ⟨l, rfl⟩
  have ne : (y :: z :: (left.inorder ++ ((plug inner yRight).inorder ++ keysAround context))).Nodup := by
    have nodup := atY.nodup
    rw [keysAround_append] at nodup
    refine (perm_iff_count.mpr fun key => ?_).nodup_iff.mp nodup
    have below := (inorder_plug_perm inner yRight).count_eq key
    simp only [keysAround, inorder, nil_append, cons_append, count_cons, count_append] at below ⊢
    omega
  cases inner with
  | nil =>
    -- The successor is the right child itself.
    obtain ⟨⟨yIsRed, yParent, _, yRightChild⟩, _, yRightHolds⟩ := rightHolds
    obtain ⟨links', placed, focus'⟩ := focus.around.replaceNode toParent (leftChild.trans isLeft) isLeft leftHolds
      yRightHolds yRightChild ne
    rw [zRed] at focus'
    refine ⟨[], yRed, y, yRight, links', rfl, rfl, ?_, focus_fill.mp focus'⟩
    have yParent' : links.parent y = some z := yParent
    have yRightChild' : links.child .right y = yRight.root := yRightChild
    simp [Links.eraseInner, hf, yParent', yRightChild', yIsRed, placed]
  | cons frame inner =>
    obtain ⟨⟨yIsRed, _, _, yRightChild⟩, _, yRightHolds⟩ := atY.holds
    have toFrame : links.parent y = some frame.key := atY.parent_eq rfl
    have rightMem : ∀ key, key ∈ (plug (frame :: inner) yRight).inorder ↔
        key ∈ yRight.inorder ∨ key ∈ keysAround (frame :: inner) := fun key => by
      rw [(inorder_plug_perm (frame :: inner) yRight).mem_iff, mem_append]
    obtain ⟨yApart, zApart, nodup⟩ : _ ∧ _ ∧ _ := ⟨(nodup_cons.mp ne).1,
      (nodup_cons.mp (nodup_cons.mp ne).2).1, (nodup_cons.mp (nodup_cons.mp ne).2).2⟩
    simp only [mem_cons, mem_append, not_or] at yApart zApart
    obtain ⟨leftNodup, rest, leftApart⟩ := nodup_append.mp nodup
    obtain ⟨rightNodup, _, rightApart⟩ := nodup_append.mp rest
    simp only [mem_append] at leftApart
    have frameZ : frame.key ≠ z := fun eq =>
      zApart.2.1 ((rightMem z).mpr (.inr (eq ▸ .head _)))
    -- First the successor's own place closes, below the right child of `z`.
    have subNodup : (yRight.inorder ++ keysAround ((frame :: inner) ++ ⟨.right, red, z, left⟩ :: context)).Nodup := by
      have nodup := atY.nodup
      simp only [inorder, nil_append, cons_append, nodup_cons] at nodup
      exact nodup.2
    have closed : (links.transplant y yRight.root).Focus context
        (join .right red (plug (frame :: inner) yRight) z left) :=
      focus_fill.mpr (focus_append.mp (atY.transplant rfl yRightHolds subNodup))
    generalize isLifted : links.transplant y yRight.root = lifted at closed
    obtain ⟨⟨zRed', toParent', rightChild', leftChild'⟩, rightHolds', leftHolds'⟩ := holds_join.mp closed.holds
    have around' := closed.around
    obtain ⟨next, isNext⟩ : ∃ next, (plug (frame :: inner) yRight).root = some next := by
      cases eq : plug (frame :: inner) yRight with
      | leaf =>
        have mem := (rightMem frame.key).mpr (.inr (.head _))
        rw [eq] at mem
        cases mem
      | node _ _ next _ => exact ⟨next, rfl⟩
    have nextMem := RbTree.root_mem isNext
    let joined := (lifted.setChild .right y (some next)).setParent next (some y)
    have eq : ∀ key, key ≠ y → joined.red key = lifted.red key ∧
        (∀ side, joined.child side key = lifted.child side key) ∧
        joined.parent key = if key = next then some y else lifted.parent key := by
      intro key keyY
      exact ⟨rfl, fun side => by simp [joined, keyY], by simp [joined]⟩
    have zNext : z ≠ next := fun isNext => zApart.2.1 (isNext ▸ nextMem)
    have zSame := eq z (Ne.symm yApart.1)
    rw [if_neg zNext] at zSame
    have joinedAround : joined.Around (some z) context := by
      have root : joined.root = lifted.root := rfl
      apply around'.congr root
      intro key mem
      obtain ⟨redSame, childSame, parentSame⟩ := eq key fun isY => yApart.2.2.2 (isY ▸ mem)
      refine ⟨redSame, childSame, parentSame.trans (if_neg ?_)⟩
      exact fun isKey => rightApart next nextMem key mem isKey.symm
    have joinedLeft : joined.Holds (some z) left := by
      apply leftHolds'.congr
      intro key mem
      obtain ⟨redSame, childSame, parentSame⟩ := eq key fun isY => yApart.2.1 (isY ▸ mem)
      refine ⟨redSame, childSame, parentSame.trans (if_neg ?_)⟩
      exact fun isKey => leftApart key mem next (.inl nextMem) isKey
    have joinedRight : joined.Holds (some y) (plug (frame :: inner) yRight) := by
      apply rightHolds'.move rightNodup
      intro key mem
      obtain ⟨redSame, childSame, parentSame⟩ := eq key fun isY => yApart.2.2.1 (isY ▸ mem)
      exact ⟨redSame, childSame, by rw [parentSame, isNext]; simp [eq_comm]⟩
    obtain ⟨links', placed, focus'⟩ := joinedAround.replaceNode (zSame.2.2.trans toParent')
      ((zSame.2.1 .left).trans (leftChild'.trans isLeft)) isLeft joinedLeft joinedRight (by simp [joined, isNext]) ne
    rw [zSame.1, zRed'] at focus'
    refine ⟨frame :: inner, yRed, y, yRight, links', rfl, leftmost, ?_, focus_append.mpr (focus_fill.mp focus')⟩
    have yRightChild' : links.child .right y = yRight.root := yRightChild
    have rightChildZ : lifted.child .right z = some next := rightChild'.trans isNext
    simpa [Links.eraseInner, hf, toFrame, frameZ, yRightChild', isLifted, rightChildZ, yIsRed] using placed

theorem Focus.patch {side : Side} {red : Bool} {y : α} {tree : RbTree α} {height fuel : Nat}
    (focus : links.Focus context tree) (fits : Fits context height)
    (balanced : (join side red leaf y tree).Balanced height) (enough : context.length < fuel) :
    ∃ links', (if red then some links else links.eraseFixup fuel tree.root (parentOf context)) = some links' ∧
      links'.RedBlack (plug context tree).inorder := by
  cases red with
  | true =>
    obtain ⟨⟨_, black⟩, _, treeBalanced⟩ := (balanced_join_red ..).mp balanced
    obtain ⟨⟨height', wholeBalanced⟩, wholeBlack⟩ := fits.plug treeBalanced (fun _ => black) (fun _ => black)
    exact ⟨links, rfl, _, height', focus_plug.mp focus, wholeBalanced, wholeBlack, rfl⟩
  | false =>
    cases height with
    | zero => exact (not_balanced_join_zero _ _ _ _ balanced).elim
    | succ height =>
      obtain ⟨_, treeBalanced⟩ := (balanced_join_black ..).mp balanced
      exact focus.eraseFixup treeBalanced.short fits enough

omit [DecidableEq α] in
theorem RedBlack.congr {nodes : List α} (tree : links.RedBlack nodes) (root : links'.root = links.root)
    (agree : ∀ key ∈ nodes, links'.red key = links.red key ∧
      (∀ side, links'.child side key = links.child side key) ∧ links'.parent key = links.parent key) :
    links'.RedBlack nodes := by
  obtain ⟨tree, height, ⟨holds, around, nodup⟩, balanced, black, rfl⟩ := tree
  exact ⟨tree, height, ⟨holds.congr agree, root.trans around, nodup⟩, balanced, black, rfl⟩

theorem RedBlack.erase {pre after : List α} {z : α} {fuel : Nat} (tree : links.RedBlack (pre ++ z :: after))
    (enough : (pre ++ z :: after).length < fuel) :
    ∃ links', links.erase fuel z = some links' ∧ links'.RedBlack (pre ++ after) := by
  obtain ⟨tree, height, focus, balanced, black, order⟩ := tree
  have mem : z ∈ tree.inorder := by simp [order]
  obtain ⟨context, red, left, right, rfl⟩ := exists_plug mem
  have atZ : links.Focus context (.node red left z right) := focus_plug.mpr focus
  obtain ⟨inner, fits, balancedZ, _⟩ := Fits.of_plug balanced black
  obtain ⟨⟨zRed, toParent, leftChild, rightChild⟩, leftHolds, rightHolds⟩ := atZ.holds
  have nodup : (pre ++ z :: after).Nodup := by
    rw [← order]
    exact (inorder_plug_perm context _).nodup_iff.mpr atZ.nodup
  simp only [nodup_middle, nodup_cons, mem_append, not_or] at nodup
  obtain ⟨⟨zBefore, zAfter⟩, _⟩ := nodup
  have sides : pre = keysBefore context ++ left.inorder ∧ after = right.inorder ++ keysAfter context := by
    have split : pre ++ z :: after =
        (keysBefore context ++ left.inorder) ++ z :: (right.inorder ++ keysAfter context) := by
      rw [← order, inorder_plug]
      simp [inorder]
    obtain ⟨sameBefore, _, sameAfter⟩ := (append_cons_inj_of_notMem zBefore zAfter).mp split
    exact ⟨sameBefore, sameAfter⟩
  have long := length_le_inorder context (.node red left z right)
  -- It is enough to take the node out; clearing its links afterwards does not touch the tree.
  have remove : ∃ yRed x xParent removed links', links.detach fuel z = some (yRed, x, xParent, removed) ∧
      (if yRed then some removed else removed.eraseFixup fuel x xParent) = some links' ∧
      links'.RedBlack (pre ++ after) := by
    rw [order] at long
    cases left with
    | leaf =>
      have leftNone : links.child .left z = none := leftChild
      have closed := atZ.transplant rfl rightHolds (nodup_cons.mp atZ.nodup).2
      have seen : (join .left red leaf z right).Balanced inner := balancedZ
      obtain ⟨links', fixed, redBlack⟩ := closed.patch fits seen (Nat.lt_of_le_of_lt long enough)
      refine ⟨red, right.root, parentOf context, _, links', ?_, fixed, ?_⟩
      · simp [detach, leftNone, rightChild, zRed, toParent]
      · rw [inorder_plug] at redBlack
        simpa [sides.1, sides.2, inorder] using redBlack
    | node redLeft left' l right' =>
      have leftSome : links.child .left z = some l := leftChild
      cases right with
      | leaf =>
        have rightNone : links.child .right z = none := rightChild
        have subNodup : ((RbTree.node redLeft left' l right').inorder ++ keysAround context).Nodup := by
          have nodup := ((inorder_join_perm .left red (.node redLeft left' l right') leaf z).append_right
            (keysAround context)).nodup_iff.mp atZ.nodup
          simp only [inorder, append_nil, cons_append, nodup_cons] at nodup ⊢
          exact nodup.2
        have closed := atZ.transplant rfl leftHolds subNodup
        have seen : (join .right red leaf z (.node redLeft left' l right')).Balanced inner := balancedZ
        obtain ⟨links', fixed, redBlack⟩ := closed.patch fits seen (Nat.lt_of_le_of_lt long enough)
        refine ⟨red, some l, parentOf context, _, links', ?_, fixed, ?_⟩
        · simp [detach, leftSome, rightNone, zRed, toParent, RbTree.root]
        · rw [inorder_plug] at redBlack
          simpa [sides.1, sides.2, inorder] using redBlack
      | node redRight left'' top right'' =>
        have rightSome : links.child .right z = some top := rightChild
        have rightSmall : (RbTree.node redRight left'' top right'').inorder.length ≤ fuel := by
          have whole := congrArg List.length order
          rw [inorder_plug] at whole
          simp only [inorder, length_append, length_cons] at whole enough ⊢
          omega
        obtain ⟨path, yRed, y, yRight, removed, eq, leftmost, done, focus'⟩ :=
          atZ.eraseInner (by simp) rfl rightSmall
        rw [eq] at balanced black order sides
        -- The successor's place is hin the tree, below `z` pre and below itself afterwards.
        have spot : plug context (.node red (.node redLeft left' l right') z (plug path (.node yRed leaf y yRight))) =
            plug (path ++ ⟨.right, red, z, .node redLeft left' l right'⟩ :: context) (.node yRed leaf y yRight) := by
          rw [plug_append]
          rfl
        rw [spot] at balanced black
        obtain ⟨height', fits', seen, _⟩ := Fits.of_plug balanced black
        have short : (path ++ ⟨.right, red, y, .node redLeft left' l right'⟩ :: context).length < fuel := by
          have long := length_le_inorder (path ++ ⟨.right, red, z, .node redLeft left' l right'⟩ :: context)
            (.node yRed leaf y yRight)
          rw [← spot, order] at long
          simp only [length_append, length_cons] at long enough ⊢
          omega
        have atLeft : (join .left yRed leaf y yRight).Balanced height' := seen
        obtain ⟨links', fixed, redBlack⟩ := focus'.patch fits'.rename atLeft short
        refine ⟨yRed, yRight.root, _, removed, links', by simp [detach, leftSome, rightSome, done], fixed, ?_⟩
        rw [plug_append, inorder_plug] at redBlack
        have filled : (plug path (.node yRed leaf y yRight)).inorder = y :: (plug path yRight).inorder := by
          simp [inorder_plug, leftmost, inorder]
        rw [filled] at sides
        simpa [keysBefore, keysAfter, sides.1, sides.2, inorder] using redBlack
  obtain ⟨yRed, x, xParent, removed, links', isRemoved, fixed, redBlack⟩ := remove
  have done : links.erase fuel z = some (((links'.setChild .left z none).setChild .right z none).setParent z none) := by
    simp only [Links.erase, isRemoved, Option.bind_some, fixed, Option.map_some]
  refine ⟨_, done, redBlack.congr rfl ?_⟩
  intro key mem
  have keyZ : key ≠ z := by
    intro eq
    rw [eq] at mem
    exact (mem_append.mp mem).elim zBefore zAfter
  simp [keyZ]

/-! ## The first node and the next one -/

theorem erase_clears {links' : Links α} {z : α} {fuel : Nat} (erased : links.erase fuel z = some links') :
    (∀ side, links'.child side z = none) ∧ links'.parent z = none := by
  obtain ⟨_, _, done⟩ := Option.bind_eq_some_iff.mp erased
  obtain ⟨_, _, rfl⟩ := Option.map_eq_some_iff.mp done
  constructor
  · intro side
    cases side <;> simp
  · simp

/-- The node after the first one, found from the pointers of the first. -/
def secondNode (links : Links α) (fuel : Nat) (first : α) : Option (Option α) :=
  match links.child .right first with
  | none => some (links.parent first)
  | some right => (links.minimum fuel right).map some

omit [DecidableEq α] in
theorem RedBlack.secondNode {first : α} {others : List α} {fuel : Nat} (tree : links.RedBlack (first :: others))
    (enough : others.length ≤ fuel) : links.secondNode fuel first = some others.head? := by
  obtain ⟨tree, height, focus, _, _, order⟩ := tree
  have mem : first ∈ tree.inorder := by simp [order]
  obtain ⟨context, red, left, right, rfl⟩ := exists_plug mem
  obtain ⟨⟨_, toParent, _, rightChild⟩, _, rightHolds⟩ := (focus_plug.mpr focus).holds
  have nodup : (first :: others).Nodup := by
    rw [← order]
    simpa [keysAround] using focus.nodup
  have split : [] ++ first :: others = (keysBefore context ++ left.inorder) ++ first :: (right.inorder ++ keysAfter context) := by
    rw [nil_append, ← order, inorder_plug]
    simp [inorder]
  obtain ⟨nothing, _, rest⟩ := (append_cons_inj_of_notMem not_mem_nil (nodup_cons.mp nodup).1).mp split
  obtain ⟨leftmost, _⟩ := append_eq_nil_iff.mp nothing.symm
  unfold Links.secondNode
  rw [rightChild, rest]
  cases right with
  | leaf =>
    simp only [RbTree.root, toParent, inorder, nil_append]
    cases context with
    | nil => rfl
    | cons frame outer =>
      rw [keysBefore_eq_nil] at leftmost
      have side : frame.side = .left := by simpa using (all_eq_true.mp leftmost) frame (.head _)
      simp [keysAfter, side]
  | node redRight left' top right' =>
    have lt : (RbTree.node redRight left' top right').inorder.length ≤ fuel := by
      rw [rest] at enough
      simp only [length_append] at enough
      omega
    obtain ⟨path, yRed, y, yRight, eq, leftmost', hf⟩ := rightHolds.minimum rfl lt
    have isTop : (RbTree.node redRight left' top right').root = some top := rfl
    rw [isTop, eq]
    simp [hf, inorder_plug, leftmost', inorder]

omit [DecidableEq α] in
theorem RedBlack.nodup {nodes : List α} (tree : links.RedBlack nodes) : nodes.Nodup := by
  obtain ⟨tree, height, focus, _, _, rfl⟩ := tree
  simpa [keysAround] using focus.nodup

omit [DecidableEq α] in
theorem redBlack_empty (isEmpty : links.root = none) : links.RedBlack [] :=
  ⟨leaf, 0, ⟨trivial, isEmpty, nodup_nil⟩, rfl, rfl, rfl⟩

end Links

end RosKernel.Library
