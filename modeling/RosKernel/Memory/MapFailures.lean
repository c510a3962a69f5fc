import RosKernel.Memory.MapRuns

/-! A `MapPages` that fails.

The pages before the failing one stay mapped and the tables that were made stay taken; one way
out also leaves the interrupts off. The call is atomic only if none of this happens.
-/

set_option autoImplicit false

namespace RosKernel.Memory

open Library

namespace PageMemory

/-- The page is given up at a page of 1 GiB: the way out that does not restore the interrupt flag. -/
def stopsAtGiga (memory : PageMemory) (pml4 virtAddr : Nat) : Bool :=
  match memory.enterTable pml4 (tableIndex 3 virtAddr) false with
  | (none, _) => false
  | (some pdpt, memory) =>
    let pdpte := memory.words pdpt (tableIndex 2 virtAddr)
    present pdpte && huge pdpte

/-- The interrupt flag after the loop of `MapPages` from page `i` on; `saved` is the flag on entry. -/
def flagFrom (memory : PageMemory) (pml4 physAddr virtAddr flags : Nat) (saved : Bool) : Nat → Nat → Bool
  | _, 0 => saved
  | i, count + 1 =>
    match memory.mapPage pml4 (add64 physAddr (mul64 i pageSize)) (add64 virtAddr (mul64 i pageSize)) flags with
    | (false, _) => if memory.stopsAtGiga pml4 (add64 virtAddr (mul64 i pageSize)) then false else saved
    | (true, memory) => memory.flagFrom pml4 physAddr virtAddr flags saved (i + 1) count

def flagAfter (memory : PageMemory) (pml4 physAddr virtAddr count flags : Nat) (saved : Bool) : Bool :=
  memory.flagFrom pml4 physAddr virtAddr flags saved 0 count

end PageMemory

/-- Nothing has happened: every address translates as before, the same frames are in use and the
interrupt flag is as on entry. -/
structure Undone (memory memory' : PageMemory) (pml4 : Nat) (saved after : Bool) : Prop where
  translations : ∀ virtAddr, memory'.getPhysicalAddress pml4 virtAddr = memory.getPhysicalAddress pml4 virtAddr
  frames : ∀ addr, memory'.InUse addr ↔ memory.InUse addr
  flag : after = saved

/-- What is in the way of an address stops `MapPages` without a table being made; at a page of
1 GiB interrupts must have been off before. -/
def Stops (memory : PageMemory) (pml4 virtAddr : Nat) (saved : Bool) : Prop :=
  match memory.wayTo pml4 virtAddr with
  | .clear _ => False
  | .large level => level = 1 → saved = false
  | .missing => memory.allocPage.1 = 0

section

variable {memory memory' : PageMemory} {pml4 virtAddr : Nat}

theorem wayTo_missing (absent : present (memory.words pml4 (tableIndex 3 virtAddr)) = false) :
    memory.wayTo pml4 virtAddr = .missing := by
  simp only [PageMemory.wayTo, PageMemory.way, absent]
  rfl

theorem stopsAtGiga_iff (tree : TableTree memory pml4) :
    memory.stopsAtGiga pml4 virtAddr = true ↔ memory.wayTo pml4 virtAddr = .large 1 := by
  unfold PageMemory.stopsAtGiga
  have inside : Indices [tableIndex 3 virtAddr] := (indices_pathOf virtAddr).tail.tail.tail
  have inside2 : Indices [tableIndex 2 virtAddr, tableIndex 3 virtAddr] := (indices_pathOf virtAddr).tail.tail
  cases entered : memory.enterTable pml4 (tableIndex 3 virtAddr) false with
  | mk next between =>
    cases tree.enterTable inside (tableAt_nil memory pml4) entered with
    | @found next _ named widens =>
      have way : memory.wayTo pml4 virtAddr = between.way next [tableIndex 2 virtAddr, tableIndex 1 virtAddr] := by
        rw [widens.ways]
        exact way_cons (tableAt_nil memory pml4) named
      rw [way]
      have lower : ∀ table, between.way table [tableIndex 1 virtAddr] ≠ .large 1 := by
        intro table
        simp only [PageMemory.way]
        split
        · rintro ⟨⟩
        · split <;> rintro ⟨⟩
      rw [PageMemory.way]
      dsimp only [List.length_singleton]
      cases present (between.words next (tableIndex 2 virtAddr)) with
      | false => constructor <;> rintro ⟨⟩
      | true =>
        cases huge (between.words next (tableIndex 2 virtAddr)) with
        | false => exact ⟨by rintro ⟨⟩, fun same => absurd same (lower _)⟩
        | true => exact ⟨fun _ => rfl, fun _ => rfl⟩
    | large notTop => exact absurd rfl notTop
    | full absent =>
      rw [wayTo_missing absent]
      constructor <;> rintro ⟨⟩
    | made absent _ extend named =>
      rw [wayTo_missing absent]
      refine ⟨fun stops => ?_, by rintro ⟨⟩⟩
      obtain ⟨here, large⟩ := Bool.and_eq_true_iff.mp stops
      have lost : memory.tableAt pml4 [tableIndex 3 virtAddr] = none := by
        rcases upper_entry (tableAt_nil memory pml4) (tableIndex 3 virtAddr) with ⟨_, lost, _⟩ | ⟨here, _⟩ | ⟨here, _⟩
        · exact lost
        · cases here.symm.trans absent
        · cases here.symm.trans absent
      -- a new table has no pages
      have nothing := extend.pages _ inside2
      rw [pageAt_lost lost] at nothing
      rcases upper_entry named (tableIndex 2 virtAddr) with ⟨absent', _⟩ | ⟨_, _, _, page⟩ | ⟨_, plain, _⟩
      · cases here.symm.trans absent'
      · rw [PageMemory.frameAt, nothing] at page
        cases page
      · grind

end

section

variable {memory memory' : PageMemory} {pml4 physAddr virtAddr flags i n : Nat} {saved : Bool}

def Way.IsClear (way : Way) : Prop := ∃ last, way = .clear last

theorem TableTree.mapPage_grows {ok : Bool} (tree : TableTree memory pml4)
    (mapped : memory.mapPage pml4 physAddr virtAddr flags = (ok, memory')) : Grows memory memory' pml4 := by
  have effect := (tree.mapPage mapped).1
  cases ok with
  | true => exact Maps.toGrows effect
  | false => exact Extends.toGrows effect

theorem TableTree.mapPagesFrom_grows {ok : Bool} {count : Nat} (tree : TableTree memory pml4)
    (mapped : memory.mapPagesFrom pml4 physAddr virtAddr flags i count = (ok, memory')) : Grows memory memory' pml4 := by
  induction count generalizing memory i with
  | zero =>
    cases mapped
    exact .refl tree
  | succ count ih =>
    unfold PageMemory.mapPagesFrom at mapped
    cases step : memory.mapPage pml4 (add64 physAddr (mul64 i pageSize)) (add64 virtAddr (mul64 i pageSize)) flags with
    | mk done mid =>
      rw [step] at mapped
      have grows := tree.mapPage_grows step
      cases done with
      | false =>
        cases mapped
        exact grows
      | true => exact grows.trans (ih grows.tree mapped)

/-- The pages whose tables are all there are mapped without a frame being taken. -/
structure MapsClear (memory between : PageMemory) (pml4 physAddr virtAddr flags i n : Nat) : Prop extends
    Grows memory between pml4 where
  frames : between.frames = memory.frames
  ways : ∀ other, between.wayTo pml4 other = memory.wayTo pml4 other
  pages : ∀ path, Indices path → between.pageAt pml4 path =
    writePages physAddr virtAddr flags i n (memory.pageAt pml4) path

theorem TableTree.mapPagesFrom_clear (tree : TableTree memory pml4)
    (clear : ∀ j, i ≤ j → j < i + n → (memory.wayTo pml4 (pageOf virtAddr j)).IsClear) (rest : Nat) :
    ∃ mid, memory.mapPagesFrom pml4 physAddr virtAddr flags i (n + rest) =
        mid.mapPagesFrom pml4 physAddr virtAddr flags (i + n) rest ∧
      memory.flagFrom pml4 physAddr virtAddr flags saved i (n + rest) =
        mid.flagFrom pml4 physAddr virtAddr flags saved (i + n) rest ∧
      MapsClear memory mid pml4 physAddr virtAddr flags i n := by
  induction n generalizing memory i with
  | zero =>
    rw [Nat.zero_add]
    exact ⟨memory, rfl, rfl, .refl tree, rfl, fun _ => rfl, fun _ _ => rfl⟩
  | succ n ih =>
    obtain ⟨last, h⟩ := clear i (Nat.le_refl i) (by omega)
    cases step : memory.mapPage pml4 (add64 physAddr (mul64 i pageSize)) (add64 virtAddr (mul64 i pageSize)) flags with
    | mk ok next =>
      obtain ⟨effect, outcome⟩ := tree.mapPage step
      change match memory.wayTo pml4 (pageOf virtAddr i) with
        | .clear _ => ok = true ∧ next.frames = memory.frames ∧
            ∀ other, next.wayTo pml4 other = memory.wayTo pml4 other
        | .large _ => ok = false ∧ next.frames = memory.frames
        | .missing => if memory.allocPage.1 = 0 then ok = false ∧ next.frames = memory.frames
          else ∃ frame, ¬memory.InUse frame ∧ next.InUse frame at outcome
      rw [h] at outcome
      obtain ⟨rfl, frames, ways⟩ := outcome
      have maps : Maps memory next pml4 (pathOf (pageOf virtAddr i)) (pageOf physAddr i ||| flags) := effect
      have later : ∀ j, i + 1 ≤ j → j < i + 1 + n → (next.wayTo pml4 (pageOf virtAddr j)).IsClear := by
        intro j low high
        rw [ways]
        exact clear j (by omega) (by omega)
      obtain ⟨mid, mapped, flag, reaches⟩ := ih maps.tree later
      have count : n + 1 + rest = n + rest + 1 := by omega
      have onward : i + (n + 1) = i + 1 + n := by omega
      refine ⟨mid, ?_, ?_, maps.toGrows.trans reaches.toGrows, reaches.frames.trans frames,
        fun other => (reaches.ways other).trans (ways other), fun path hin => ?_⟩
      · rw [count, onward, PageMemory.mapPagesFrom, step]
        exact mapped
      · rw [count, onward, PageMemory.flagFrom, step]
        exact flag
      · rw [reaches.pages path hin]
        exact writePages_congr (i + 1) n (maps.pages path hin)

end

section

variable {memory memory' : PageMemory} {pml4 physAddr virtAddr flags i n : Nat} {saved : Bool}

theorem frameAt_eq_of_translations {last last' : Nat} (hr : memory.tableAt pml4 (pathOf virtAddr).tail = some (0, last))
    (hr' : memory'.tableAt pml4 (pathOf virtAddr).tail = some (0, last'))
    (eq : ∀ other, memory'.getPhysicalAddress pml4 other = memory.getPhysicalAddress pml4 other) :
    memory'.frameAt pml4 (pathOf virtAddr) = memory.frameAt pml4 (pathOf virtAddr) := by
  have at_ : ∀ off < pageSize,
      (memory'.frameAt pml4 (pathOf virtAddr)).elim 0 (add64 · off) =
        (memory.frameAt pml4 (pathOf virtAddr)).elim 0 (add64 · off) := by
    intro off lt
    have path : pathOf (virtAddr / 4096 * 4096 + off) = pathOf virtAddr := by
      apply pathOf_congr
      simp only [pageSize] at lt
      omega
    have low : (virtAddr / 4096 * 4096 + off) % pageSize = off := by
      simp only [pageSize] at lt ⊢
      omega
    have equal := eq (virtAddr / 4096 * 4096 + off)
    rw [getPhysicalAddress_last (path ▸ hr'), getPhysicalAddress_last (path ▸ hr), path, low] at equal
    revert equal
    cases memory'.frameAt pml4 (pathOf virtAddr) <;> cases memory.frameAt pml4 (pathOf virtAddr) <;> exact id
  have zero := at_ 0 (by decide)
  have one := at_ 1 (by decide)
  cases new : memory'.frameAt pml4 (pathOf virtAddr) with
  | none =>
    cases old : memory.frameAt pml4 (pathOf virtAddr) with
    | none => rfl
    | some frame =>
      have lt := frameAt_small old
      rw [new, old] at one
      simp only [Option.elim, add64] at one
      omega
  | some frame' =>
    have small' := frameAt_small new
    cases old : memory.frameAt pml4 (pathOf virtAddr) with
    | none =>
      rw [new, old] at one
      simp only [Option.elim, add64] at one
      omega
    | some frame =>
      have lt := frameAt_small old
      rw [new, old] at zero
      simp only [Option.elim, add64] at zero
      exact congrArg some (by omega)

theorem translations_iff (grows : Grows memory memory' pml4)
    (pages : ∀ path, Indices path → memory'.pageAt pml4 path =
      writePages physAddr virtAddr flags 0 i (memory.pageAt pml4) path)
    (clear : ∀ j < i, (memory.wayTo pml4 (pageOf virtAddr j)).IsClear) :
    (∀ other, memory'.getPhysicalAddress pml4 other = memory.getPhysicalAddress pml4 other) ↔
      ∀ path, Indices path →
        (writePages physAddr virtAddr flags 0 i (memory.pageAt pml4) path).map entryAddr = memory.frameAt pml4 path := by
  have frames : ∀ path, Indices path → memory'.frameAt pml4 path =
      (writePages physAddr virtAddr flags 0 i (memory.pageAt pml4) path).map entryAddr :=
    fun path hin => congrArg (Option.map entryAddr) (pages path hin)
  constructor
  · intro eq path hin
    by_cases written : ∃ j < i, path = pathOf (pageOf virtAddr j)
    · obtain ⟨j, pre, rfl⟩ := written
      obtain ⟨last, way⟩ := clear j pre
      have hr : memory.tableAt pml4 (pathOf (pageOf virtAddr j)).tail = some (0, last) := by
        rw [tableAt_wayTo, way]
      rw [← frames _ hin]
      exact frameAt_eq_of_translations hr (grows.kept _ _ hin.tail hr) eq
    · rw [writePages_other fun j _ pre eq => written ⟨j, by omega, eq⟩]
      rfl
  · intro eq other
    rw [getPhysicalAddress_eq, getPhysicalAddress_eq]
    exact resolve_congr (fun path hin => (frames path hin).trans (eq path hin)) other

end

section

variable {memory memory' : PageMemory} {pml4 physAddr virtAddr flags count : Nat} {saved : Bool}

/-- Page `i` stops the call before anything was taken, and the pages before it were mapped as requested already. -/
structure StopsClean (memory : PageMemory) (pml4 physAddr virtAddr flags : Nat) (saved : Bool) (i : Nat) : Prop where
  clear : ∀ j < i, (memory.wayTo pml4 (pageOf virtAddr j)).IsClear
  stops : Stops memory pml4 (pageOf virtAddr i) saved
  same : ∀ path, Indices path →
    (writePages physAddr virtAddr flags 0 i (memory.pageAt pml4) path).map entryAddr = memory.frameAt pml4 path

theorem Stops.notClear {page : Nat} (stops : Stops memory pml4 page saved) : ¬(memory.wayTo pml4 page).IsClear := by
  rintro ⟨last, way⟩
  unfold Stops at stops
  rw [way] at stops
  exact stops

theorem exists_first_stop (tree : TableTree memory pml4)
    (failed : memory.mapPages pml4 physAddr virtAddr count flags = (false, memory')) :
    ∃ i < count, (∀ j < i, (memory.wayTo pml4 (pageOf virtAddr j)).IsClear) ∧
      ¬(memory.wayTo pml4 (pageOf virtAddr i)).IsClear := by
  classical
  have some_ : ∃ i, i < count ∧ ¬(memory.wayTo pml4 (pageOf virtAddr i)).IsClear := by
    by_contra none_
    have clear : ∀ j, 0 ≤ j → j < 0 + count → (memory.wayTo pml4 (pageOf virtAddr j)).IsClear := by
      intro j _ bound
      by_contra stop
      exact none_ ⟨j, by omega, stop⟩
    obtain ⟨mid, mapped, _⟩ := @TableTree.mapPagesFrom_clear memory pml4 physAddr virtAddr flags 0 count false tree clear 0
    exact nomatch failed.symm.trans mapped
  obtain ⟨bound, stop⟩ := Nat.find_spec some_
  refine ⟨Nat.find some_, bound, fun j pre => ?_, stop⟩
  by_contra notClear
  exact Nat.find_min some_ pre ⟨by omega, notClear⟩

theorem TableTree.mapPage_stops {next : PageMemory} {page phys : Nat} {ok : Bool} (tree : TableTree memory pml4)
    (notClear : ¬(memory.wayTo pml4 page).IsClear) (step : memory.mapPage pml4 phys page flags = (ok, next)) :
    (ok = false ∧ Extends memory next pml4 ∧ next.frames = memory.frames ∧
        ((if memory.stopsAtGiga pml4 page then false else saved) = saved ↔ Stops memory pml4 page saved)) ∨
      (∃ frame, ¬memory.InUse frame ∧ next.InUse frame) ∧ ¬Stops memory pml4 page saved := by
  obtain ⟨effect, outcome⟩ := tree.mapPage step
  have giga := @stopsAtGiga_iff memory pml4 page tree
  unfold Stops
  cases way : memory.wayTo pml4 page with
  | clear last => exact absurd ⟨last, way⟩ notClear
  | large level =>
    rw [way] at outcome giga
    obtain ⟨rfl, frames⟩ := outcome
    refine .inl ⟨rfl, effect, frames, ?_⟩
    by_cases top : level = 1
    · grind
    · grind
  | missing =>
    rw [way] at outcome giga
    have restored : (if memory.stopsAtGiga pml4 page then false else saved) = saved :=
      if_neg fun stops => nomatch giga.mp stops
    by_cases full : memory.allocPage.1 = 0
    · grind
    · grind

theorem stops_congr {mid : PageMemory} {page : Nat} (frames : mid.frames = memory.frames)
    (ways : mid.wayTo pml4 page = memory.wayTo pml4 page) : Stops mid pml4 page saved ↔ Stops memory pml4 page saved := by
  unfold Stops
  rw [ways, allocPage_congr frames]

theorem undone_at {i rest : Nat} (tree : TableTree memory pml4)
    (clear : ∀ j < i, (memory.wayTo pml4 (pageOf virtAddr j)).IsClear)
    (stop : ¬(memory.wayTo pml4 (pageOf virtAddr i)).IsClear)
    (failed : memory.mapPages pml4 physAddr virtAddr (i + (rest + 1)) flags = (false, memory')) :
    Undone memory memory' pml4 saved (memory.flagAfter pml4 physAddr virtAddr (i + (rest + 1)) flags saved) ↔
      StopsClean memory pml4 physAddr virtAddr flags saved i := by
  obtain ⟨mid, mapped, flag, reaches⟩ := @TableTree.mapPagesFrom_clear memory pml4 physAddr virtAddr flags 0 i saved tree
    (fun j _ bound => clear j (by omega)) (rest + 1)
  unfold PageMemory.mapPages at failed
  unfold PageMemory.flagAfter
  rw [mapped, Nat.zero_add, PageMemory.mapPagesFrom] at failed
  rw [flag, Nat.zero_add, PageMemory.flagFrom]
  have stop' : ¬(mid.wayTo pml4 (pageOf virtAddr i)).IsClear := by rwa [reaches.ways]
  cases step : mid.mapPage pml4 (add64 physAddr (mul64 i pageSize)) (add64 virtAddr (mul64 i pageSize)) flags with
  | mk ok next =>
    rw [step] at failed
    rcases @TableTree.mapPage_stops mid pml4 flags saved next _ _ ok reaches.tree stop' step with
      ⟨rfl, extend, frames, restored⟩ | ⟨⟨frame, fresh, used⟩, ht⟩
    · -- the failing page itself changes nothing but the flag
      cases failed
      have pages : ∀ path, Indices path → memory'.pageAt pml4 path =
          writePages physAddr virtAddr flags 0 i (memory.pageAt pml4) path :=
        fun path hin => (extend.pages path hin).trans (reaches.pages path hin)
      have translations := translations_iff (reaches.toGrows.trans extend.toGrows) pages clear
      have stops := restored.trans (stops_congr reaches.frames (reaches.ways _))
      constructor
      · intro undone
        exact ⟨clear, stops.mp undone.flag, translations.mp undone.translations⟩
      · intro clean
        exact ⟨translations.mpr clean.same, inUse_congr (frames.trans reaches.frames), stops.mpr clean.stops⟩
    · -- a frame was ht, and it is not given back
      have stays : memory'.InUse frame := by
        cases ok with
        | false =>
          cases failed
          exact used
        | true => exact (((reaches.tree.mapPage_grows step).tree.mapPagesFrom_grows failed).inUse frame).mpr (.inl used)
      have notUsed : ¬memory.InUse frame := fun old => fresh ((inUse_congr reaches.frames frame).mpr old)
      constructor
      · exact fun undone => absurd ((undone.frames frame).mp stays) notUsed
      · exact fun clean => absurd ((stops_congr reaches.frames (reaches.ways _)).mpr clean.stops) ht

/-- A failing call has left nothing behind exactly if it stops clean at some page. -/
theorem mapPages_undone_iff (tree : TableTree memory pml4)
    (failed : memory.mapPages pml4 physAddr virtAddr count flags = (false, memory')) :
    Undone memory memory' pml4 saved (memory.flagAfter pml4 physAddr virtAddr count flags saved) ↔
      ∃ i < count, StopsClean memory pml4 physAddr virtAddr flags saved i := by
  obtain ⟨i, bound, clear, stop⟩ := exists_first_stop tree failed
  obtain ⟨rest, rfl⟩ : ∃ rest, count = i + (rest + 1) := ⟨count - i - 1, by omega⟩
  rw [undone_at tree clear stop failed]
  constructor
  · exact fun clean => ⟨i, bound, clean⟩
  · rintro ⟨other, _, clean⟩
    rcases Nat.lt_trichotomy other i with pre | rfl | after
    · exact absurd (clear other pre) clean.stops.notClear
    · exact clean
    · exact absurd (clean.clear i after) stop

/-- The second GiB is one page, and nothing else is mapped. -/
def gigaMemory : PageMemory := ⟨⟨fun _ => 0, fun _ => 0⟩, fun table i =>
  if table = 0x1000 ∧ i = 0 then 0x2003 else if table = 0x2000 ∧ i = 1 then 0x83 else 0, []⟩

theorem gigaMemory_tree : TableTree gigaMemory 0x1000 := by
  have upper : ∀ i, below (gigaMemory.levelEntry (3, 0x1000) i) = if i = 0 then some (2, 0x2000) else none := by
    intro i
    by_cases zero : i = 0
    · subst zero
      decide
    · have word : gigaMemory.words 0x1000 i = 0 := by simp [gigaMemory, zero]
      simp only [PageMemory.levelEntry, word, if_neg zero]
      decide
  have lower : ∀ i, below (gigaMemory.levelEntry (2, 0x2000) i) = none := by
    intro i
    by_cases one : i = 1
    · subst one
      decide
    · have word : gigaMemory.words 0x2000 i = 0 := by simp [gigaMemory, one]
      simp only [PageMemory.levelEntry, word]
      decide
  have only : ∀ path node, gigaMemory.tableAt 0x1000 path = some node →
      path = [] ∧ node = (3, 0x1000) ∨ path = [0] ∧ node = (2, 0x2000) := by
    intro path node hr
    induction path generalizing node with
    | nil => exact .inl ⟨rfl, (Option.some.inj hr).symm⟩
    | cons i path ih =>
      obtain ⟨parent, above, named⟩ := Option.bind_eq_some_iff.mp hr
      rcases ih parent above with ⟨rfl, rfl⟩ | ⟨rfl, rfl⟩
      · rw [upper] at named
        split at named
        case isTrue zero => exact .inr ⟨by rw [zero], (Option.some.inj named).symm⟩
        case isFalse => cases named
      · cases (lower i).symm.trans named
  constructor
  · rintro addr ⟨path, level, _, hr⟩ ⟨k, _, rfl⟩
    rcases only path _ hr with ⟨_, eq⟩ | ⟨_, eq⟩
    all_goals
      have addr := congrArg Prod.snd eq
      simp only [physBase] at addr
      omega
  · intro path path' level level' addr _ _ hr hr'
    rcases only path _ hr with ⟨rfl, eq⟩ | ⟨rfl, eq⟩ <;>
      rcases only path' _ hr' with ⟨rfl, same'⟩ | ⟨rfl, same'⟩
    · rfl
    · have one : addr = 0x1000 := congrArg Prod.snd eq
      have other : addr = 0x2000 := congrArg Prod.snd same'
      omega
    · have one : addr = 0x2000 := congrArg Prod.snd eq
      have other : addr = 0x1000 := congrArg Prod.snd same'
      omega
    · rfl

/-- A call that is stopped at its first page, with interrupts off before, leaves nothing behind. -/
theorem mapPages_undone_first :
    Undone gigaMemory (gigaMemory.mapPages 0x1000 0x80000000 0x40000000 1 7).2 0x1000 false
      (gigaMemory.flagAfter 0x1000 0x80000000 0x40000000 1 7 false) := by
  have failed : gigaMemory.mapPages 0x1000 0x80000000 0x40000000 1 7 =
      (false, (gigaMemory.mapPages 0x1000 0x80000000 0x40000000 1 7).2) := Prod.ext (by decide +kernel) rfl
  have way : gigaMemory.wayTo 0x1000 (pageOf 0x40000000 0) = .large 1 := by decide +kernel
  refine (mapPages_undone_iff gigaMemory_tree failed).mpr ⟨0, by decide, fun j pre => (nomatch pre), ?_, fun _ _ => rfl⟩
  unfold Stops
  rw [way]
  exact fun _ => rfl

/-- A call that is stopped at its second page leaves the first one mapped, two tables taken and the interrupts off. -/
theorem mapPages_left_behind :
    TableTree gigaMemory 0x1000 ∧ (gigaMemory.mapPages 0x1000 0x80000000 0x3FFFF000 2 7).1 = false ∧
      gigaMemory.getPhysicalAddress 0x1000 0x3FFFF000 = 0 ∧
      (gigaMemory.mapPages 0x1000 0x80000000 0x3FFFF000 2 7).2.getPhysicalAddress 0x1000 0x3FFFF000 = 0x80000000 ∧
      gigaMemory.flagAfter 0x1000 0x80000000 0x3FFFF000 2 7 true = false :=
  ⟨gigaMemory_tree, by decide +kernel, by decide +kernel, by decide +kernel, by decide +kernel⟩

end

end RosKernel.Memory
