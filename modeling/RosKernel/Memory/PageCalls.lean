import RosKernel.Memory.PageTree

/-! What the paging calls do to page tables that are in order.

Each call is followed from entry to entry along one path. Tables come and go with their
contents; the pages that are mapped change only where the call is asked to change them.
-/

set_option autoImplicit false

namespace RosKernel.Memory

open Library List

/-! ## Mapping a page -/

section

variable {memory : PageMemory} {roots shared : Nat → Prop} {root table i : Nat} {path : List Nat}

theorem write_words (memory : PageMemory) (table idx entry other j : Nat) :
    (memory.write table idx entry).words other j = if other = table ∧ j = idx then entry else memory.words other j := by
  simp only [PageMemory.write, Function.update_apply]
  by_cases eq : other = table
  · subst eq
    by_cases h : j = idx <;> simp [h]
  · simp [eq]

theorem clearPage_words (memory : PageMemory) (frame other j : Nat) :
    (memory.clearPage frame).words other j = if other = frame then 0 else memory.words other j := by
  simp only [PageMemory.clearPage, Function.update_apply]
  by_cases eq : other = frame <;> simp [eq]

section

variable (tree : PageTree memory roots shared)
include tree

theorem PageTree.grow {frame : Nat} (memory' : PageMemory) (isRoot : roots root) (user : UserPath (i :: path))
    (inner : path.length ≤ 2) (hr : memory.walk root path = some table) (absent : present (memory.words table i) = false)
    (managed : Managed frame) (fresh : ¬ memory.InUse frame)
    (inUse : ∀ addr, memory'.InUse addr ↔ memory.InUse addr ∨ addr = frame)
    (words : ∀ other j, memory'.words other j = if other = table ∧ j = i then tableEntry frame else if other = frame then 0 else memory.words other j) :
    PageTree memory' roots shared ∧ SameLeaves roots memory memory' ∧ memory'.walk root (i :: path) = some frame := by
  obtain ⟨tableUsed, _⟩ := tree.own isRoot user.tail user.short hr
  obtain ⟨addr, h, notHuge⟩ := tableEntry_spec managed.mappable
  have ne : frame ≠ table := by
    rintro rfl
    exact fresh tableUsed
  have written : memory'.words table i = tableEntry frame := by rw [words, if_pos ⟨rfl, rfl⟩]
  have names : entryFrame (memory'.words table i) = some frame := by
    rw [written, entryFrame_present h, addr]
  have blank : ∀ j, memory'.words frame j = 0 := by
    intro j
    rw [words, if_neg fun both => ne both.1, if_pos rfl]
  have untouched : ∀ root' path' frame', roots root' → UserPath path' → memory.walk root' path' = some frame' →
      ¬ shared frame' → frame' ≠ frame := by
    rintro root' path' frame' isRoot' user' hr' notShared rfl
    cases tree.used root' path' frame' isRoot' user' hr' with
    | inl alone => exact fresh alone.1
    | inr leaf => exact notShared leaf.2
  have eq : ∀ root' path' table' j, roots root' → UserPath (j :: path') → memory.walk root' path' = some table' →
      ¬ (table' = table ∧ j = i) → memory'.words table' j = memory.words table' j := by
    intro root' path' table' j isRoot' user' hr' other
    have notShared := (tree.own isRoot' user'.tail user'.short hr').2
    rw [words, if_neg other, if_neg (untouched root' path' table' isRoot' user'.tail hr' notShared)]
  have walks := tree.walk_write memory' isRoot user hr eq
    (by
      intro child childNamed
      rw [entryFrame_absent absent] at childNamed
      exact nomatch childNamed)
    (by
      intro child childNamed _ j _
      rw [names] at childNamed
      cases childNamed
      rw [blank]
      rfl)
  rw [names] at walks
  have pre : memory.walk root (i :: path) = none := by
    rw [PageMemory.walk_cons i hr, entryFrame_absent absent]
  have frameNotShared : ¬ shared frame := fun isShared => fresh (tree.held frame isShared managed)
  refine ⟨tree.replace walks ?_ ?_ ?_ ?_, ?_, ?_⟩
  · grind
  · intro frame' isNew
    cases isNew
    refine .inl ⟨(inUse frame).mpr (.inr rfl), frameNotShared, ?_⟩
    intro root' path' isRoot' user' hr'
    exact absurd rfl (untouched root' path' frame isRoot' user' hr' frameNotShared)
  · intro root' path' table' j isRoot' user' inner' hr' isPresent
    rw [walks root' path' isRoot' user'.tail] at hr'
    split at hr'
    · cases hr'
      rw [blank] at isPresent
      exact nomatch isPresent
    · by_cases entry : table' = table ∧ j = i
      · rw [entry.1, entry.2, written]
        exact notHuge
      · rw [eq root' path' table' j isRoot' user' hr' entry] at isPresent ⊢
        exact tree.plain root' path' table' j isRoot' user' inner' hr' isPresent
  · intro frame' isShared frameManaged
    exact (inUse frame').mpr (.inl (tree.held frame' isShared frameManaged))
  · exact sameLeaves_of_table isRoot user inner walks pre fresh inUse
  · rw [walks _ _ isRoot user, if_pos ⟨rfl, rfl⟩]

theorem PageTree.same (memory' : PageMemory)
    (words : ∀ root path table j, roots root → UserPath (j :: path) → memory.walk root path = some table → entryFrame (memory'.words table j) = entryFrame (memory.words table j) ∧ huge (memory'.words table j) = huge (memory.words table j))
    (inUse : ∀ addr, memory'.InUse addr ↔ memory.InUse addr) :
    PageTree memory' roots shared ∧ SameLeaves roots memory memory' ∧
      ∀ root path, roots root → UserPath path → memory'.walk root path = memory.walk root path := by
  have closed : Closed fun root path => roots root ∧ UserPath path := by
    intro root i path hin
    exact ⟨hin.1, hin.2.tail⟩
  have walks : ∀ root path, roots root → UserPath path → memory'.walk root path = memory.walk root path := by
    intro root path isRoot user
    apply walk_congr closed
    · intro root' path' table j hin hr
      exact (words root' path' table j hin.1 hin.2 hr).1
    · exact ⟨isRoot, user⟩
  refine ⟨⟨?_, ?_, ?_, ?_⟩, ⟨?_, ?_⟩, walks⟩
  · intro root path frame isRoot user hr
    rw [walks root path isRoot user] at hr
    rw [inUse]
    exact tree.used root path frame isRoot user hr
  · intro root path root' path' frame isRoot user isRoot' user' hr hr'
    rw [walks root path isRoot user] at hr
    rw [walks root' path' isRoot' user'] at hr'
    exact tree.once root path root' path' frame isRoot user isRoot' user' hr hr'
  · intro root path table i isRoot user inner hr isPresent
    rw [walks root path isRoot user.tail] at hr
    obtain ⟨sameFrame, sameHuge⟩ := words root path table i isRoot user hr
    rw [sameHuge]
    apply tree.plain root path table i isRoot user inner hr
    by_contra absent
    rw [entryFrame_present isPresent, entryFrame_absent (Bool.eq_false_iff.mpr absent)] at sameFrame
    exact nomatch sameFrame
  · intro frame isShared managed
    exact (inUse frame).mpr (tree.held frame isShared managed)
  · grind
  · intro frame
    unfold PageMemory.Data
    rw [inUse]
    refine and_congr_right fun _ => forall₂_congr fun root path => forall₃_congr fun isRoot user _ => ?_
    rw [walks root path isRoot user]

theorem PageTree.enterTable {next : Option Nat} {memory' : PageMemory} {checkHuge : Bool} (isRoot : roots root)
    (user : UserPath (i :: path)) (inner : path.length ≤ 2) (hr : memory.walk root path = some table)
    (entered : memory.enterTable table i checkHuge = (next, memory')) :
    PageTree memory' roots shared ∧ SameLeaves roots memory memory' ∧ memory'.freed = memory.freed ∧
      ∀ frame, next = some frame → memory'.walk root (i :: path) = some frame := by
  unfold PageMemory.enterTable at entered
  by_cases h : present (memory.words table i) = true
  · simp only [h, Bool.not_true, Bool.false_eq_true, if_false] at entered
    have notHuge := tree.plain root path table i isRoot user inner hr h
    simp only [notHuge, Bool.and_false, Bool.false_eq_true, if_false] at entered
    split at entered
    · -- The entry becomes writable and names the table that it named pre.
      cases entered
      have writable := writable_entry (memory.words table i)
      obtain ⟨tree', eq, walks⟩ := tree.same (memory.write table i (memory.words table i ||| pageRW))
        (by
          intro root' path' table' j _ _ _
          rw [write_words]
          split
          next both =>
            rw [both.1, both.2]
            simp only [entryFrame, writable.1, writable.2.1, writable.2.2, and_self]
          next => exact ⟨rfl, rfl⟩)
        (fun _ => .rfl)
      refine ⟨tree', eq, rfl, fun frame isNext => ?_⟩
      cases isNext
      rw [walks root (i :: path) isRoot user, PageMemory.walk_cons i hr, entryFrame_present h, write_words,
        if_pos ⟨rfl, rfl⟩, writable.1]
    · cases entered
      refine ⟨tree, .refl, rfl, fun frame isNext => ?_⟩
      cases isNext
      rw [PageMemory.walk_cons i hr, entryFrame_present h]
  · have absent := Bool.eq_false_iff.mpr h
    simp only [absent, Bool.not_false, if_true] at entered
    rcases allocPage_cases memory with none_ | ⟨frame, frames, ht, managed, fresh, inUse⟩
    · rw [none_] at entered
      cases entered
      exact ⟨tree, .refl, rfl, fun _ isNext => by cases isNext⟩
    · rw [ht] at entered
      simp only [managed.pos, if_false] at entered
      cases entered
      obtain ⟨tree', eq, walks⟩ := tree.grow
        ((PageMemory.clearPage { memory with frames := frames } frame).write table i (tableEntry frame))
        isRoot user inner hr absent managed fresh inUse
        (by
          intro other j
          rw [write_words, clearPage_words])
      refine ⟨tree', eq, rfl, fun next isNext => ?_⟩
      cases isNext
      exact walks

end

theorem PageTree.enterTables {rest : List (Nat × Bool)} {last : Option Nat} {memory' : PageMemory}
    (tree : PageTree memory roots shared) (isRoot : roots root) (hr : memory.walk root path = some table)
    (entered : memory.enterTables table rest = (last, memory'))
    (user : UserPath ((rest.map Prod.fst).reverse ++ path)) (inner : path.length + rest.length ≤ 3) :
    PageTree memory' roots shared ∧ SameLeaves roots memory memory' ∧ memory'.freed = memory.freed ∧
      ∀ frame, last = some frame → memory'.walk root ((rest.map Prod.fst).reverse ++ path) = some frame := by
  induction rest generalizing memory table path with
  | nil =>
    cases entered
    refine ⟨tree, .refl, rfl, fun frame isLast => ?_⟩
    cases isLast
    exact hr
  | cons first rest ih =>
    obtain ⟨idx, checkHuge⟩ := first
    simp only [length_cons] at inner
    simp only [map_cons, reverse_cons, append_assoc, singleton_append] at user ⊢
    unfold PageMemory.enterTables at entered
    have userHere : UserPath (idx :: path) := user.suffix (suffix_append ..)
    cases step : memory.enterTable table idx checkHuge with
    | mk next mid =>
      rw [step] at entered
      obtain ⟨tree', eq, history, walked⟩ := tree.enterTable isRoot userHere (by omega) hr step
      cases next with
      | none =>
        cases entered
        exact ⟨tree', eq, history, fun _ isLast => nomatch isLast⟩
      | some next =>
        obtain ⟨tree'', same', history', walked'⟩ :=
          ih tree' (walked next rfl) entered user (by simp only [length_cons]; omega)
        exact ⟨tree'', eq.trans same', history'.trans history, walked'⟩

theorem PageTree.writeLeaf {entry : Nat} (tree : PageTree memory roots shared) (isRoot : roots root)
    (user : UserPath (i :: path)) (leaf : path.length = 3) (hr : memory.walk root path = some table)
    (new : ∀ frame, entryFrame entry = some frame →
      (memory.InUse frame ∧ ¬ shared frame ∧ ∀ root' path', roots root' → UserPath path' →
        memory.walk root' path' = some frame → root' = root ∧ path' = i :: path) ∨ shared frame) :
    PageTree (memory.write table i entry) roots shared ∧
      (∀ root' path', roots root' → UserPath path' → (memory.write table i entry).walk root' path' =
        if root' = root ∧ path' = i :: path then entryFrame entry else memory.walk root' path') ∧
      ∀ frame, (memory.write table i entry).Data roots frame ↔ memory.Data roots frame := by
  have written : (memory.write table i entry).words table i = entry := by rw [write_words, if_pos ⟨rfl, rfl⟩]
  have eq : ∀ root' path' table' j, roots root' → UserPath (j :: path') → memory.walk root' path' = some table' →
      ¬ (table' = table ∧ j = i) → (memory.write table i entry).words table' j = memory.words table' j := by
    intro root' path' table' j _ _ _ other
    rw [write_words, if_neg other]
  have walks := tree.walk_write (memory.write table i entry) isRoot user hr eq
    (fun _ _ inner => absurd inner (by omega)) (fun _ _ inner => absurd inner (by omega))
  rw [written] at walks
  refine ⟨tree.replace walks ?_ ?_ ?_ tree.held, walks, ?_⟩
  · intro _ _ frame _ _ _ _ _ used
    exact used
  · intro frame isNew
    cases new frame isNew with
    | inl alone => exact .inl alone
    | inr isShared => exact .inr ⟨by simp only [length_cons, leaf], isShared⟩
  · intro root' path' table' j isRoot' user' inner' hr' isPresent
    have away : ¬ (root' = root ∧ path' = i :: path) := by
      rintro ⟨_, rfl⟩
      simp only [length_cons, leaf] at inner'
      omega
    rw [walks root' path' isRoot' user'.tail, if_neg away] at hr'
    -- The written table is at the last level, and `table'` is not.
    have other : table' ≠ table := by
      rintro rfl
      have notShared := (tree.own isRoot user.tail user.short hr).2
      obtain ⟨_, rfl⟩ := tree.once root path root' path' table' isRoot user.tail isRoot' user'.tail hr hr'
        notShared
      omega
    have unwritten : (memory.write table i entry).words table' j = memory.words table' j := by
      rw [write_words, if_neg fun both => other both.1]
    rw [unwritten] at isPresent ⊢
    exact tree.plain root' path' table' j isRoot' user' inner' hr' isPresent
  · intro frame
    refine and_congr_right fun _ => forall₂_congr fun root' path' => forall₃_congr fun isRoot' user' short => ?_
    rw [walks root' path' isRoot' user', if_neg]
    rintro ⟨_, rfl⟩
    simp only [length_cons, leaf] at short
    omega

/-- The frame may be mapped on a path: it is shared, or it is in use and on no other path. -/
def PageMemory.MayMap (memory : PageMemory) (roots shared : Nat → Prop) (root : Nat) (path : List Nat)
    (frame : Nat) : Prop :=
  shared frame ∨ memory.Data roots frame ∧ ¬ shared frame ∧ ∀ root' path', roots root' → UserPath path' →
    path'.length = 4 → memory.walk root' path' = some frame → root' = root ∧ path' = path

theorem PageTree.mapPage {physAddr virtAddr flags : Nat} {ok : Bool} {memory' : PageMemory}
    (tree : PageTree memory roots shared) (isRoot : roots root) (lt : virtAddr < 2 ^ 47)
    (mappable : Mappable physAddr) (low : entryAddr flags = 0) (h : present flags = true)
    (may : memory.MayMap roots shared root (pathOf virtAddr) physAddr)
    (mapped : memory.mapPage root physAddr virtAddr flags = (ok, memory')) :
    PageTree memory' roots shared ∧ memory'.freed = memory.freed ∧
      (∀ frame, memory'.Data roots frame ↔ memory.Data roots frame) ∧
      ∀ root' path', roots root' → UserPath path' → path'.length = 4 → memory'.walk root' path' =
        if ok = true ∧ root' = root ∧ path' = pathOf virtAddr then some physAddr else memory.walk root' path' := by
  unfold PageMemory.mapPage at mapped
  have user := userPath_pathOf lt
  cases entered : memory.enterTables root
      [(tableIndex 3 virtAddr, false), (tableIndex 2 virtAddr, true), (tableIndex 1 virtAddr, true)] with
  | mk last mid =>
    rw [entered] at mapped
    obtain ⟨tree', eq, history, walked⟩ := tree.enterTables isRoot
      (PageMemory.walk_nil memory root) entered user.tail (Nat.le_refl 3)
    cases last with
    | none =>
      cases mapped
      refine ⟨tree', history, eq.data, fun root' path' isRoot' user' leaf => ?_⟩
      rw [eq.leaves root' path' isRoot' user' leaf, if_neg fun both => nomatch both.1]
    | some pt =>
      cases mapped
      have names : entryFrame (physAddr ||| flags) = some physAddr := by
        rw [entryFrame_present (by rw [present_flags mappable.aligned, h]), entryAddr_flags mappable low]
      have fits : ∀ frame, entryFrame (physAddr ||| flags) = some frame →
          (mid.InUse frame ∧ ¬ shared frame ∧ ∀ root' path', roots root' → UserPath path' →
            mid.walk root' path' = some frame → root' = root ∧ path' = pathOf virtAddr) ∨ shared frame := by
        intro frame isNew
        rw [names] at isNew
        cases isNew
        cases may with
        | inl isShared => exact .inr isShared
        | inr alone =>
          obtain ⟨data, notShared, only⟩ := alone
          obtain ⟨used, notTable⟩ := (eq.data physAddr).mpr data
          refine .inl ⟨used, notShared, fun root' path' isRoot' user' hr => ?_⟩
          have leaf : path'.length = 4 := by
            by_contra other
            have := user'.depth
            exact notTable root' path' isRoot' user' (by omega) hr
          rw [eq.leaves root' path' isRoot' user' leaf] at hr
          exact only root' path' isRoot' user' leaf hr
      obtain ⟨tree'', walks, data⟩ := tree'.writeLeaf isRoot user rfl (walked pt rfl) fits
      refine ⟨tree'', history, fun frame => (data frame).trans (eq.data frame), ?_⟩
      intro root' path' isRoot' user' leaf
      rw [walks root' path' isRoot' user', names, eq.leaves root' path' isRoot' user' leaf]
      simp only [true_and]
      rfl

end

/-! ## Reading and removing a page -/

section

variable {memory : PageMemory} {roots shared : Nat → Prop} {root table i : Nat} {path : List Nat}

theorem entryAddr_mappable (entry : Nat) : Mappable (entryAddr entry) := by
  rw [entryAddr_eq]
  constructor
  · exact Nat.mul_mod_left _ _
  · omega

theorem PageTree.entry_cases (tree : PageTree memory roots shared) (isRoot : roots root)
    (user : UserPath (i :: path)) (inner : path.length ≤ 2) (hr : memory.walk root path = some table) :
    (present (memory.words table i) = false ∧ memory.walk root (i :: path) = none) ∨
    present (memory.words table i) = true ∧ huge (memory.words table i) = false ∧
      memory.walk root (i :: path) = some (entryAddr (memory.words table i)) := by
  rw [PageMemory.walk_cons i hr]
  by_cases h : present (memory.words table i) = true
  · exact .inr ⟨h, tree.plain root path table i isRoot user inner hr h, entryFrame_present h⟩
  · have absent := Bool.eq_false_iff.mpr h
    exact .inl ⟨absent, entryFrame_absent absent⟩

theorem walk_none_cons (below : Nat) (lost : memory.walk root path = none) : memory.walk root (below :: path) = none := by
  have step : memory.walk root (below :: path) =
      (memory.walk root path).bind fun table => entryFrame (memory.words table below) := rfl
  rw [step, lost, Option.bind_none]

theorem PageTree.getPhysicalAddress {virtAddr : Nat} (tree : PageTree memory roots shared) (isRoot : roots root)
    (lt : virtAddr < 2 ^ 47) (hal : virtAddr % pageSize = 0) :
    memory.getPhysicalAddress root virtAddr = (memory.walk root (pathOf virtAddr)).getD 0 := by
  have user := userPath_pathOf lt
  unfold PageMemory.getPhysicalAddress
  simp only
  rcases tree.entry_cases isRoot user.tail.tail.tail (Nat.zero_le 2) (PageMemory.walk_nil memory root) with
    ⟨absent, lost⟩ | ⟨here3, _, walked3⟩
  · rw [absent]
    simp only [Bool.not_false, if_true]
    rw [pathOf, walk_none_cons _ (walk_none_cons _ (walk_none_cons _ lost)), Option.getD_none]
  · simp only [here3, Bool.not_true, Bool.false_eq_true, if_false]
    rcases tree.entry_cases isRoot user.tail.tail (Nat.le_succ 1) walked3 with ⟨absent, lost⟩ | ⟨here2, notHuge2, walked2⟩
    · rw [absent]
      simp only [Bool.not_false, if_true]
      rw [pathOf, walk_none_cons _ (walk_none_cons _ lost), Option.getD_none]
    · simp only [here2, notHuge2, Bool.not_true, Bool.false_eq_true, if_false]
      rcases tree.entry_cases isRoot user.tail (Nat.le_refl 2) walked2 with ⟨absent, lost⟩ | ⟨here1, notHuge1, walked1⟩
      · rw [absent]
        simp only [Bool.not_false, if_true]
        rw [pathOf, walk_none_cons _ lost, Option.getD_none]
      · simp only [here1, notHuge1, Bool.not_true, Bool.false_eq_true, if_false]
        rw [pathOf, PageMemory.walk_cons _ walked1]
        cases here0 : present (memory.words (entryAddr (memory.words (entryAddr (memory.words (entryAddr
            (memory.words root (tableIndex 3 virtAddr))) (tableIndex 2 virtAddr))) (tableIndex 1 virtAddr)))
            (tableIndex 0 virtAddr)) with
        | false =>
          simp only [Bool.not_false, if_true]
          rw [entryFrame_absent here0, Option.getD_none]
        | true =>
          simp only [Bool.not_true, Bool.false_eq_true, if_false]
          have bounded := (entryAddr_mappable (memory.words (entryAddr (memory.words (entryAddr (memory.words (entryAddr
            (memory.words root (tableIndex 3 virtAddr))) (tableIndex 2 virtAddr))) (tableIndex 1 virtAddr)))
            (tableIndex 0 virtAddr))).small
          rw [entryFrame_present here0, Option.getD_some, and_low_of_aligned hal (by decide), add64_eq (by omega),
            Nat.add_zero]

/-- From `memory` to `memory'` the frames of `log` are given back, each of them once. -/
structure Frees (memory memory' : PageMemory) (log : List Nat) : Prop where
  history : memory'.freed = memory.freed ++ log
  nodup : log.Nodup
  used : ∀ frame ∈ log, memory.InUse frame
  inUse : ∀ frame, memory'.InUse frame ↔ memory.InUse frame ∧ frame ∉ log

theorem Frees.nothing {memory' : PageMemory} (history : memory'.freed = memory.freed)
    (inUse : ∀ frame, memory'.InUse frame ↔ memory.InUse frame) : Frees memory memory' [] := by
  constructor
  · rw [history, append_nil]
  · exact nodup_nil
  · exact fun frame mem => nomatch mem
  · intro frame
    rw [inUse]
    simp

theorem Frees.trans {memory' memory'' : PageMemory} {first snd : List Nat} (one : Frees memory memory' first)
    (other : Frees memory' memory'' snd) : Frees memory memory'' (first ++ snd) := by
  constructor
  · rw [other.history, one.history, append_assoc]
  · rw [nodup_append']
    refine ⟨one.nodup, other.nodup, fun frame inFirst inSecond => ?_⟩
    exact ((one.inUse frame).mp (other.used frame inSecond)).2 inFirst
  · intro frame mem
    cases mem_append.mp mem with
    | inl inFirst => exact one.used frame inFirst
    | inr inSecond => exact ((one.inUse frame).mp (other.used frame inSecond)).1
  · intro frame
    rw [other.inUse, one.inUse, mem_append, not_or, and_assoc]

theorem frees_free {frame : Nat} (used : memory.InUse frame) : Frees memory (memory.free frame) [frame] := by
  constructor
  · rfl
  · exact nodup_singleton frame
  · grind
  · intro other
    rw [free_inUse used.managed, mem_singleton]

theorem emptyTable_iff : memory.emptyTable table = true ↔ ∀ j, j < tableSize → present (memory.words table j) = false := by
  simp only [PageMemory.emptyTable, all_eq_true, mem_range, Bool.not_eq_true']

theorem PageTree.reclaim {parent : Nat} (tree : PageTree memory roots shared) (isRoot : roots root)
    (user : UserPath (i :: path)) (inner : path.length ≤ 2) (hr : memory.walk root path = some parent)
    (child : memory.walk root (i :: path) = some table) :
    PageTree (memory.reclaim parent i table) roots shared ∧ SameLeaves roots memory (memory.reclaim parent i table) ∧
      (∃ log, Frees memory (memory.reclaim parent i table) log) ∧
      ∀ shorter, UserPath shorter → shorter.length ≤ path.length →
        (memory.reclaim parent i table).walk root shorter = memory.walk root shorter := by
  unfold PageMemory.reclaim
  split
  next empty =>
    rw [emptyTable_iff] at empty
    have names : entryFrame (memory.words parent i) = some table := by rw [← PageMemory.walk_cons i hr, child]
    have addr : entryAddr (memory.words parent i) = table := by
      unfold entryFrame at names
      split at names
      · exact Option.some.inj names
      · exact nomatch names
    simp only [addr]
    obtain ⟨tableUsed, tableNotShared⟩ := tree.own isRoot user (Nat.succ_le_succ inner) child
    have writes : Frees memory (memory.write parent i 0) [] := .nothing rfl fun _ => .rfl
    have stillUsed : (memory.write parent i 0).InUse table := tableUsed
    have frees : Frees memory ((memory.write parent i 0).free table) [table] := writes.trans (frees_free stillUsed)
    have unwritten : ∀ other j, ¬ (other = parent ∧ j = i) →
        ((memory.write parent i 0).free table).words other j = memory.words other j := by
      intro other j away
      exact (write_words memory parent i 0 other j).trans (if_neg away)
    have written : ((memory.write parent i 0).free table).words parent i = 0 :=
      (write_words memory parent i 0 parent i).trans (if_pos ⟨rfl, rfl⟩)
    have absent : entryFrame (((memory.write parent i 0).free table).words parent i) = none := by
      rw [written]
      rfl
    have walks := tree.walk_write ((memory.write parent i 0).free table) isRoot user hr
      (fun _ _ table' j _ _ _ away => unwritten table' j away)
      (by
        intro child' named _ j lt
        rw [names] at named
        cases named
        exact empty j lt)
      (by
        intro child' named
        rw [absent] at named
        exact nomatch named)
    rw [absent] at walks
    generalize (memory.write parent i 0).free table = memory' at frees unwritten written walks
    refine ⟨tree.replace walks ?_ (fun _ isNew => nomatch isNew) ?_ ?_, ?_, ⟨[table], frees⟩, ?_⟩
    · intro root' path' frame isRoot' user' away hr' notShared used
      rw [frees.inUse, mem_singleton]
      refine ⟨used, fun eq => away ?_⟩
      subst eq
      exact tree.once root (i :: path) root' path' frame isRoot user isRoot' user' child hr' notShared
    · intro root' path' table' j isRoot' user' inner' hr' isPresent
      rw [walks root' path' isRoot' user'.tail] at hr'
      split at hr'
      · exact nomatch hr'
      · by_cases entry : table' = parent ∧ j = i
        · rw [entry.1, entry.2, written] at isPresent
          exact nomatch isPresent
        · rw [unwritten table' j entry] at isPresent ⊢
          exact tree.plain root' path' table' j isRoot' user' inner' hr' isPresent
    · intro frame isShared managed
      rw [frees.inUse, mem_singleton]
      refine ⟨tree.held frame isShared managed, fun eq => ?_⟩
      exact tableNotShared (eq ▸ isShared)
    · -- Read backwards, the table is one that is added.
      apply SameLeaves.symm
      apply sameLeaves_of_table isRoot user inner
      · intro root' path' isRoot' user'
        by_cases h : root' = root ∧ path' = i :: path
        · rw [if_pos h, h.1, h.2, child]
        · grind
      · grind
      · intro used
        exact ((frees.inUse table).mp used).2 (mem_singleton.mpr rfl)
      · intro addr
        rw [frees.inUse, mem_singleton]
        by_cases eq : addr = table
        · simp [eq, tableUsed]
        · simp [eq]
    · intro shorter userShorter bound
      rw [walks root shorter isRoot userShorter, if_neg]
      rintro ⟨_, rfl⟩
      simp only [length_cons] at bound
      omega
  next =>
    refine ⟨tree, .refl, ⟨[], .nothing rfl fun _ => .rfl⟩, ?_⟩
    intros
    rfl

/-- The page at the end of a path is no longer mapped there; no other page is concerned. -/
structure Detached (roots shared : Nat → Prop) (root : Nat) (path : List Nat) (memory memory' : PageMemory) : Prop where
  tree : PageTree memory' roots shared
  frees : ∃ log, Frees memory memory' log
  data : ∀ frame, memory'.Data roots frame ↔ memory.Data roots frame
  leaves : ∀ root' path', roots root' → UserPath path' → path'.length = 4 → memory'.walk root' path' =
    if root' = root ∧ path' = path then none else memory.walk root' path'

section

variable (tree : PageTree memory roots shared)
include tree

theorem Detached.missing (lost : memory.walk root path = none) : Detached roots shared root path memory memory := by
  refine ⟨tree, ⟨[], .nothing rfl fun _ => .rfl⟩, fun _ => .rfl, ?_⟩
  intro root' path' _ _ _
  split
  next h => rw [h.1, h.2, lost]
  next => rfl

theorem PageTree.detach {pt pd pdpt i0 i1 i2 i3 : Nat} (isRoot : roots root) (user : UserPath [i0, i1, i2, i3])
    (walked1 : memory.walk root [i1, i2, i3] = some pt) (walked2 : memory.walk root [i2, i3] = some pd)
    (walked3 : memory.walk root [i3] = some pdpt) : Detached roots shared root [i0, i1, i2, i3] memory
      ((((memory.write pt i0 0).reclaim pd i1 pt).reclaim pdpt i2 pd).reclaim root i3 pdpt) := by
  have clear : ∀ frame, entryFrame 0 ≠ some frame := fun frame isNew => nomatch isNew
  obtain ⟨tree0, walks, data⟩ := tree.writeLeaf isRoot user rfl walked1 fun frame isNew => absurd isNew (clear frame)
  have above : ∀ shorter, UserPath shorter → shorter.length ≤ 3 →
      (memory.write pt i0 0).walk root shorter = memory.walk root shorter := by
    intro shorter userShorter bound
    rw [walks root shorter isRoot userShorter, if_neg]
    rintro ⟨_, rfl⟩
    simp only [length_cons, length_nil] at bound
    omega
  have clears : Frees memory (memory.write pt i0 0) [] := .nothing rfl fun _ => .rfl
  generalize memory.write pt i0 0 = memory0 at *
  obtain ⟨tree1, same1, ⟨log1, frees1⟩, above1⟩ := tree0.reclaim isRoot user.tail (Nat.le_refl 2)
    ((above [i2, i3] user.tail.tail (by simp)).trans walked2) ((above [i1, i2, i3] user.tail (by simp)).trans walked1)
  have kept1 : ∀ shorter, UserPath shorter → shorter.length ≤ 2 →
      (memory0.reclaim pd i1 pt).walk root shorter = memory.walk root shorter := by
    intro shorter userShorter bound
    rw [above1 shorter userShorter bound, above shorter userShorter (by omega)]
  generalize memory0.reclaim pd i1 pt = memory1 at *
  obtain ⟨tree2, same2, ⟨log2, frees2⟩, above2⟩ := tree1.reclaim isRoot user.tail.tail (Nat.le_succ 1)
    ((kept1 [i3] user.tail.tail.tail (by simp)).trans walked3) ((kept1 [i2, i3] user.tail.tail (by simp)).trans walked2)
  have kept2 : (memory1.reclaim pdpt i2 pd).walk root [i3] = some pdpt := by
    rw [above2 [i3] user.tail.tail.tail (Nat.le_refl 1), kept1 [i3] user.tail.tail.tail (by simp), walked3]
  generalize memory1.reclaim pdpt i2 pd = memory2 at *
  obtain ⟨tree3, same3, ⟨log3, frees3⟩, _⟩ := tree2.reclaim isRoot user.tail.tail.tail (Nat.zero_le 2)
    (PageMemory.walk_nil memory2 root) kept2
  have eq := (same1.trans same2).trans same3
  refine ⟨tree3, ⟨_, ((clears.trans frees1).trans frees2).trans frees3⟩, fun frame => ?_, ?_⟩
  · rw [eq.data, data]
  · intro root' path' isRoot' user' leaf
    rw [eq.leaves root' path' isRoot' user' leaf, walks root' path' isRoot' user']
    rfl

theorem PageTree.unmapEntry {virtAddr : Nat} {removed : Bool} {memory' : PageMemory} (isRoot : roots root)
    (lt : virtAddr < 2 ^ 47) (unmapped : memory.unmapEntry root virtAddr = (removed, memory')) :
    Detached roots shared root (pathOf virtAddr) memory memory' := by
  have user := userPath_pathOf lt
  unfold PageMemory.unmapEntry at unmapped
  simp only at unmapped
  rcases tree.entry_cases isRoot user.tail.tail.tail (Nat.zero_le 2) (PageMemory.walk_nil memory root) with
    ⟨absent, lost⟩ | ⟨here3, _, walked3⟩
  · rw [absent] at unmapped
    cases unmapped
    exact .missing tree (walk_none_cons _ (walk_none_cons _ (walk_none_cons _ lost)))
  · simp only [here3, Bool.not_true, Bool.false_eq_true, if_false] at unmapped
    rcases tree.entry_cases isRoot user.tail.tail (Nat.le_succ 1) walked3 with ⟨absent, lost⟩ | ⟨here2, notHuge2, walked2⟩
    · rw [absent] at unmapped
      cases unmapped
      exact .missing tree (walk_none_cons _ (walk_none_cons _ lost))
    · simp only [here2, notHuge2, Bool.not_true, Bool.or_false, Bool.false_eq_true, if_false] at unmapped
      rcases tree.entry_cases isRoot user.tail (Nat.le_refl 2) walked2 with ⟨absent, lost⟩ | ⟨here1, notHuge1, walked1⟩
      · rw [absent] at unmapped
        cases unmapped
        exact .missing tree (walk_none_cons _ lost)
      · simp only [here1, notHuge1, Bool.not_true, Bool.or_false, Bool.false_eq_true, if_false] at unmapped
        split at unmapped
        next absent =>
          cases unmapped
          simp only [Bool.not_eq_true'] at absent
          exact .missing tree (by rw [pathOf, PageMemory.walk_cons _ walked1, entryFrame_absent absent])
        next =>
          cases unmapped
          exact tree.detach isRoot user walked1 walked2 walked3

end

end

/-! ## Frames taken and given back -/

section

variable {memory : PageMemory} {roots shared : Nat → Prop} {root frame : Nat}

theorem PageTree.bitmap (tree : PageTree memory roots shared) (memory' : PageMemory)
    (words : memory'.words = memory.words)
    (kept : ∀ root path frame, roots root → UserPath path → memory.walk root path = some frame → ¬ shared frame →
      memory'.InUse frame)
    (held : ∀ frame, shared frame → Managed frame → memory'.InUse frame) :
    PageTree memory' roots shared ∧ ∀ root path, memory'.walk root path = memory.walk root path := by
  have walks : ∀ root path, memory'.walk root path = memory.walk root path := by
    intro root path
    unfold PageMemory.walk
    rw [words]
  refine ⟨⟨?_, ?_, ?_, held⟩, walks⟩
  · intro root path frame isRoot user hr
    rw [walks] at hr
    cases tree.used root path frame isRoot user hr with
    | inl alone => exact .inl ⟨kept root path frame isRoot user hr alone.2, alone.2⟩
    | inr leaf => exact .inr leaf
  · intro root path root' path' frame isRoot user isRoot' user' hr hr'
    rw [walks] at hr hr'
    exact tree.once root path root' path' frame isRoot user isRoot' user' hr hr'
  · intro root path table i isRoot user inner hr
    rw [walks] at hr
    rw [words]
    exact tree.plain root path table i isRoot user inner hr

/-- A frame that is not reached on any path. -/
def PageMemory.Unreached (memory : PageMemory) (roots : Nat → Prop) (frame : Nat) : Prop :=
  ∀ root path, roots root → UserPath path → memory.walk root path ≠ some frame

theorem PageTree.allocPage (tree : PageTree memory roots shared) :
    memory.allocPage = (0, memory) ∨
    ∃ frame memory', memory.allocPage = (frame, memory') ∧ Managed frame ∧ PageTree memory' roots shared ∧
      (∀ root path, memory'.walk root path = memory.walk root path) ∧ memory'.freed = memory.freed ∧
      ¬ shared frame ∧ ¬ memory.Data roots frame ∧ memory'.Unreached roots frame ∧
      ∀ other, memory'.Data roots other ↔ memory.Data roots other ∨ other = frame := by
  rcases allocPage_cases memory with none_ | ⟨frame, frames, ht, managed, fresh, inUse⟩
  · exact .inl none_
  · have notShared : ¬ shared frame := fun isShared => fresh (tree.held frame isShared managed)
    have unreached : memory.Unreached roots frame := by
      intro root path isRoot user hr
      cases tree.used root path frame isRoot user hr with
      | inl alone => exact fresh alone.1
      | inr leaf => exact notShared leaf.2
    obtain ⟨tree', walks⟩ := tree.bitmap { memory with frames := frames } rfl
      (by
        intro root path other isRoot user hr notShared
        cases tree.used root path other isRoot user hr with
        | inl alone => exact (inUse other).mpr (.inl alone.1)
        | inr leaf => exact absurd leaf.2 notShared)
      (fun other isShared managed => (inUse other).mpr (.inl (tree.held other isShared managed)))
    refine .inr ⟨frame, _, ht, managed, tree', walks, rfl, notShared, fun data => fresh data.1, ?_, ?_⟩
    · intro root path isRoot user
      rw [walks]
      exact unreached root path isRoot user
    · intro other
      unfold PageMemory.Data
      rw [inUse]
      constructor
      · intro ⟨used, notTable⟩
        cases used with
        | inl old => exact .inl ⟨old, notTable⟩
        | inr new => exact .inr new
      · intro known
        cases known with
        | inl old => exact ⟨.inl old.1, old.2⟩
        | inr new =>
          subst new
          exact ⟨.inr rfl, fun root path isRoot user _ => unreached root path isRoot user⟩

theorem PageTree.free (tree : PageTree memory roots shared) (data : memory.Data roots frame)
    (notShared : ¬ shared frame) (unreached : memory.Unreached roots frame) :
    PageTree (memory.free frame) roots shared ∧ Frees memory (memory.free frame) [frame] ∧
      (∀ root path, (memory.free frame).walk root path = memory.walk root path) ∧
      ∀ other, (memory.free frame).Data roots other ↔ memory.Data roots other ∧ other ≠ frame := by
  have frees := frees_free data.1
  have ne : ∀ other, (memory.free frame).InUse other ↔ memory.InUse other ∧ other ≠ frame := by
    intro other
    rw [frees.inUse, mem_singleton]
  obtain ⟨tree', walks⟩ := tree.bitmap (memory.free frame) rfl
    (by
      intro root path other isRoot user hr otherNotShared
      rw [ne]
      constructor
      · cases tree.used root path other isRoot user hr with
        | inl alone => exact alone.1
        | inr leaf => exact absurd leaf.2 otherNotShared
      · rintro rfl
        exact unreached root path isRoot user hr)
    (by
      intro other isShared managed
      rw [ne]
      refine ⟨tree.held other isShared managed, ?_⟩
      rintro rfl
      exact notShared isShared)
  refine ⟨tree', frees, walks, fun other => ?_⟩
  unfold PageMemory.Data
  rw [ne]
  simp only [walks]
  rw [and_right_comm]

theorem PageTree.fill (tree : PageTree memory roots shared) (memory' : PageMemory) (frames : memory'.frames = memory.frames)
    (notTable : ∀ root path, roots root → UserPath path → path.length ≤ 3 → memory.walk root path ≠ some frame)
    (words : ∀ other, other ≠ frame → memory'.words other = memory.words other) :
    PageTree memory' roots shared ∧ SameLeaves roots memory memory' := by
  have inUse : ∀ addr, memory'.InUse addr ↔ memory.InUse addr := by
    intro addr
    unfold PageMemory.InUse
    rw [frames]
  obtain ⟨tree', eq, _⟩ := tree.same memory'
    (by
      intro root path table j isRoot user hr
      have other : table ≠ frame := by
        rintro rfl
        exact notTable root path isRoot user.tail user.short hr
      rw [words table other]
      exact ⟨rfl, rfl⟩)
    inUse
  exact ⟨tree', eq⟩

end

end RosKernel.Memory
