import RosKernel.Memory.MapRuns

/-! What `MapPages` leaves alone in memory.

The call writes the tables on the way to a page and frames that were free. Every other word stays.
-/

set_option autoImplicit false

namespace RosKernel.Memory

section

variable {memory memory' : PageMemory} {pml4 table i frame j level : Nat} {path rest : List Nat}

theorem enterTable_words {next : Option Nat} {check : Bool} (entered : memory.enterTable table i check = (next, memory'))
    (notEntry : ¬(frame = table ∧ j = i)) (notNext : next ≠ some frame) : memory'.words frame j = memory.words frame j := by
  unfold PageMemory.enterTable at entered
  cases h : present (memory.words table i) with
  | false =>
    simp only [h, Bool.not_false, if_true] at entered
    rcases allocPage_cases memory with none_ | ⟨ht, frames, alloc, managed, _⟩
    · grind
    · rw [alloc, if_neg managed.pos] at entered
      cases entered
      rw [write_words, if_neg notEntry, clearPage_words, if_neg fun eq => notNext (congrArg some eq.symm)]
  | true =>
    simp only [h, Bool.not_true, Bool.false_eq_true, if_false] at entered
    split at entered
    case isTrue =>
      cases entered
      rfl
    case isFalse =>
      cases entered
      split
      case isTrue => rw [write_words, if_neg notEntry]
      case isFalse => rfl

theorem TableTree.enterTable_fresh {next : Option Nat} {addr : Nat} (tree : TableTree memory pml4) (hin : Indices (i :: path))
    (hr : memory.tableAt pml4 path = some (level + 1, table)) {check : Bool}
    (entered : memory.enterTable table i check = (next, memory')) (isTable : memory'.IsTable pml4 addr) :
    memory.IsTable pml4 addr ∨ ¬memory.InUse addr := by
  obtain ⟨path', level', hin', there⟩ := isTable
  unfold PageMemory.enterTable at entered
  cases h : present (memory.words table i) with
  | false =>
    simp only [h, Bool.not_false, if_true] at entered
    rcases allocPage_cases memory with none_ | ⟨frame, frames, ht, managed, fresh, inUse⟩
    · rw [none_, if_pos rfl] at entered
      cases entered
      exact .inl ⟨path', level', hin', there⟩
    · rw [ht, if_neg managed.pos] at entered
      cases entered
      have words : ∀ other j, ((PageMemory.clearPage { memory with frames := frames } frame).write table i
          (tableEntry frame)).words other j =
            if other = table ∧ j = i then tableEntry frame else if other = frame then 0 else memory.words other j := by
        intro other j
        rw [write_words, clearPage_words]
      have named := (tree.tableAt_addTable hin hr h managed fresh words hin').symm.trans there
      split at named
      case isTrue =>
        cases Option.some.inj named
        exact .inr fresh
      case isFalse => exact .inl ⟨path', level', hin', named⟩
  | true =>
    simp only [h, Bool.not_true, Bool.false_eq_true, if_false] at entered
    split at entered
    case isTrue =>
      cases entered
      exact .inl ⟨path', level', hin', there⟩
    case isFalse =>
      cases entered
      split at there
      case isTrue =>
        rw [tableAt_widen memory pml4 table i hin'] at there
        exact .inl ⟨path', level', hin', there⟩
      case isFalse => exact .inl ⟨path', level', hin', there⟩

theorem TableTree.enterTables_fresh {last : Option Nat} {addr : Nat} (tree : TableTree memory pml4)
    (inside : Indices (rest.reverse ++ path)) (reached : memory.tableAt pml4 path = some (rest.length, table))
    (entered : memory.enterTables table (checks rest) = (last, memory')) (isTable : memory'.IsTable pml4 addr) :
    memory.IsTable pml4 addr ∨ ¬memory.InUse addr := by
  induction rest generalizing memory table path with
  | nil =>
    cases entered
    exact .inl isTable
  | cons i rest ih =>
    rw [List.reverse_cons, List.append_assoc, List.singleton_append] at inside
    have insideHere : Indices (i :: path) := fun j mem => inside j (List.mem_append_right _ mem)
    simp only [checks, PageMemory.enterTables] at entered
    have step : ∀ next between, memory.enterTable table i (rest.length != 2) = (some next, between) →
        Grows memory between pml4 → between.tableAt pml4 (i :: path) = some (rest.length, next) →
        between.enterTables next (checks rest) = (last, memory') → memory.IsTable pml4 addr ∨ ¬memory.InUse addr := by
      intro next between first grows named rest_
      rcases ih grows.tree inside named rest_ with old | fresh
      · exact tree.enterTable_fresh insideHere reached first old
      · exact .inr fun used => fresh ((grows.inUse addr).mpr (.inl used))
    cases first : memory.enterTable table i (rest.length != 2) with
    | mk next between =>
      rw [first] at entered
      cases tree.enterTable insideHere reached first with
      | @found next _ named widens => exact step next between first widens.toGrows (widens.kept _ _ insideHere named) entered
      | @made next _ _ _ extend named => exact step next between first extend.toGrows named entered
      | large => cases entered; exact .inl isTable
      | full => cases entered; exact .inl isTable

section

variable {physAddr virtAddr flags : Nat} {ok : Bool}

theorem mapPage_levels (memory : PageMemory) (pml4 physAddr virtAddr flags : Nat) :
    memory.mapPage pml4 physAddr virtAddr flags =
      match memory.enterTables pml4 (checks [tableIndex 3 virtAddr, tableIndex 2 virtAddr, tableIndex 1 virtAddr]) with
      | (none, memory) => (false, memory)
      | (some pt, memory) => (true, memory.write pt (tableIndex 0 virtAddr) (physAddr ||| flags)) := rfl

section

variable (tree : TableTree memory pml4) (mapped : memory.mapPage pml4 physAddr virtAddr flags = (ok, memory'))
include tree mapped

theorem TableTree.mapPage_cases : ∃ last mid,
      memory.enterTables pml4 (checks [tableIndex 3 virtAddr, tableIndex 2 virtAddr, tableIndex 1 virtAddr]) = (last, mid) ∧
      (∀ path, Indices path → memory'.tableAt pml4 path = mid.tableAt pml4 path) ∧
      ((last = none ∧ memory' = mid) ∨ ∃ pt, mid.tableAt pml4 (pathOf virtAddr).tail = some (0, pt) ∧
        memory' = mid.write pt (tableIndex 0 virtAddr) (physAddr ||| flags)) := by
  rw [mapPage_levels] at mapped
  cases entered : memory.enterTables pml4 (checks [tableIndex 3 virtAddr, tableIndex 2 virtAddr, tableIndex 1 virtAddr]) with
  | mk last mid =>
    refine ⟨last, mid, rfl, ?_⟩
    rw [entered] at mapped
    obtain ⟨extend, hf, _⟩ := @TableTree.enterTables memory mid pml4 pml4 []
      [tableIndex 3 virtAddr, tableIndex 2 virtAddr, tableIndex 1 virtAddr] last tree (indices_pathOf virtAddr).tail rfl entered
    cases last with
    | none =>
      cases mapped
      exact ⟨fun _ _ => rfl, .inl ⟨rfl, rfl⟩⟩
    | some pt =>
      cases mapped
      refine ⟨fun path hin => ?_, .inr ⟨pt, hf pt rfl, rfl⟩⟩
      exact extend.tree.tableAt_writeLast (indices_pathOf virtAddr) (hf pt rfl) _ hin

theorem TableTree.mapPage_fresh {addr : Nat} (isTable : memory'.IsTable pml4 addr) :
    memory.IsTable pml4 addr ∨ ¬memory.InUse addr := by
  obtain ⟨last, mid, entered, walks, _⟩ := tree.mapPage_cases mapped
  obtain ⟨path, level, hin, there⟩ := isTable
  exact @TableTree.enterTables_fresh memory mid pml4 pml4 []
    [tableIndex 3 virtAddr, tableIndex 2 virtAddr, tableIndex 1 virtAddr] last addr tree (indices_pathOf virtAddr).tail rfl entered
    ⟨path, level, hin, (walks path hin).symm.trans there⟩

end

end

end

end RosKernel.Memory
