import RosKernel.Memory.Allocates
import RosKernel.Memory.MapRuns
import RosKernel.Process.ExecArguments

/-! How a new program finds its arguments.

The frames of the stack are taken from the allocator before anything is pushed, so no two of them are the same and none
belongs to the caller.
-/

set_option autoImplicit false

namespace RosKernel.Process

open Library Memory List

section

variable {memory memory' : PageMemory} {addr : Nat}

theorem mapStackFrom_frames {newPML4 i count : Nat} {frames : List Nat}
    (mapped : mapStackFrom newPML4 i count memory = (some frames, memory')) :
    frames.length = count ∧ frames.Nodup ∧ ∀ frame ∈ frames, Managed frame ∧ ¬memory.InUse frame := by
  induction count generalizing memory memory' i frames with
  | zero =>
    cases mapped
    exact ⟨rfl, .nil, fun frame mem => nomatch mem⟩
  | succ count ih =>
    rw [mapStackFrom] at mapped
    rcases allocPage_cases memory with none_ | ⟨frame, bitmap, ht, managed, fresh, inUse⟩
    · rw [none_] at mapped
      exact nomatch mapped
    · rw [ht] at mapped
      simp only [ne_eq, managed.pos, not_false_eq_true, if_true] at mapped
      generalize mid : (PageMemory.mapPages { memory with frames := bitmap } newPML4 frame (stackBase + i * 0x1000) 1 7).2 =
        next at mapped
      have keeps : ∀ other, memory.InUse other ∨ other = frame → next.InUse other := by
        intro other known
        rw [← mid]
        exact (mapPagesFrom_allocates _ _ _ _ _ _ _).inUse other ((inUse other).mpr known)
      cases rest : mapStackFrom newPML4 (i + 1) count next with
      | mk hf last =>
        rw [rest] at mapped
        cases hf with
        | none => exact nomatch mapped
        | some others =>
          obtain ⟨length, dist, fresh'⟩ := ih rest
          cases mapped
          refine ⟨congrArg Nat.succ length, .cons (fun again => ?_) dist, fun other mem => ?_⟩
          · exact (fresh' _ again).2 (keeps _ (.inr rfl))
          · cases mem with
            | head => exact ⟨managed, fresh⟩
            | tail _ later => exact ⟨(fresh' other later).1, fun used => (fresh' other later).2 (keeps other (.inl used))⟩

/-- The caller's addresses lead to frames that are in use or not the allocator's. -/
def CallerHeld (memory ready : PageMemory) (pml4 : Nat) : Prop :=
  ∀ frame, ready.Reads pml4 frame → memory.InUse frame ∨ ¬Managed frame

variable {ready : PageMemory} {newPML4 pml4 : Nat} {frames : List Nat}

theorem stackFrames_of_mapped (mapped : mapStack newPML4 memory = (some frames, ready)) (behind : Nat → Nat) :
    StackFrames (stackPhys frames behind) := by
  obtain ⟨length, dist, fresh⟩ := mapStackFrom_frames mapped
  have entry : ∀ i (hin : i < userStackPages), ∃ short : i < frames.length, stackPhys frames behind i = frames[i] := by
    intro i hin
    have short : i < frames.length := by omega
    exact ⟨short, getD_eq_getElem frames (behind i) short⟩
  constructor
  · intro i hin
    obtain ⟨short, eq⟩ := entry i hin
    rw [eq]
    exact (fresh _ (getElem_mem short)).1.mappable.aligned
  · intro i hin j insideOther eq
    obtain ⟨short, first⟩ := entry i hin
    obtain ⟨shortOther, snd⟩ := entry j insideOther
    rw [first, snd] at eq
    exact dist.getElem_inj_iff.mp eq

theorem apart_of_held (mapped : mapStack newPML4 memory = (some frames, ready)) (held : CallerHeld memory ready pml4)
    (behind : Nat → Nat) : Apart ready pml4 (stackPhys frames behind) := by
  obtain ⟨length, _, fresh⟩ := mapStackFrom_frames mapped
  rintro frame reads j hin rfl
  have short : j < frames.length := by omega
  have eq : stackPhys frames behind j = frames[j] := getD_eq_getElem frames (behind j) short
  obtain ⟨managed, free⟩ := fresh _ (getElem_mem short)
  rw [eq] at reads
  cases held _ reads with
  | inl used => exact free used
  | inr foreign => exact foreign managed

end

section

variable {memory ready : PageMemory} {newPML4 pml4 : Nat} {frames : List Nat}

theorem inBounds_iff {phys : Nat → Nat} {userArgv userEnvp : Nat} (stackFrames : StackFrames phys)
    (ne : Apart ready pml4 phys) :
    (∀ write ∈ (buildStack phys pml4 userArgv userEnvp ready).stack.writes, write.InBounds) ↔
      stackNeed (argStrings ready pml4 userArgv maxArgc) (argStrings ready pml4 userEnvp maxEnvp) ≤ stackSize := by
  have runs := @buildStack_runs phys ready pml4 userArgv userEnvp stackFrames ne _ _ rfl rfl
  rw [← fits_iff]
  unfold Runs at runs
  constructor
  · intro inBounds
    by_contra full
    rw [if_neg full] at runs
    obtain ⟨write, mem, out⟩ := runs
    exact out (inBounds write mem)
  · intro fits write mem
    rw [if_pos fits] at runs
    rcases runs.writes write mem with old | good
    · exact nomatch old
    · exact good

/-- Every write to the stack stays on it exactly if the arguments fit. -/
theorem exec_stack_inBounds_iff (mapped : mapStack newPML4 memory = (some frames, ready))
    (held : CallerHeld memory ready pml4) (behind : Nat → Nat) (userArgv userEnvp : Nat) :
    (∀ write ∈ (buildStack (stackPhys frames behind) pml4 userArgv userEnvp ready).stack.writes, write.InBounds) ↔
      stackNeed (argStrings ready pml4 userArgv maxArgc) (argStrings ready pml4 userEnvp maxEnvp) ≤ stackSize :=
  inBounds_iff (stackFrames_of_mapped mapped behind) (apart_of_held mapped held behind)

end

section

variable {memory ready : PageMemory} {newPML4 pml4 : Nat} {frames : List Nat}

/-- A string in the caller's memory, with its end. -/
structure HoldsString (memory : PageMemory) (pml4 ptr : Nat) (string : List UInt8) : Prop where
  short : string.length ≤ 1023
  bytes : ∀ k (inside : k < string.length), memory.copyFromUser pml4 (add64 ptr k) 1 = (true, [string[k]])
  nonzero : ∀ byte ∈ string, byte ≠ 0
  ended : memory.copyFromUser pml4 (add64 ptr string.length) 1 = (true, [0])

/-- An array of pointers to strings; a null pointer follows unless the array is as long as it may be. -/
structure HoldsArray (memory : PageMemory) (pml4 array limit : Nat) (strings : List (List UInt8)) : Prop where
  count : strings.length ≤ limit
  none : array = 0 → strings = []
  entries : ∀ i (inside : i < strings.length), ∃ ptr, ptr ≠ 0 ∧ ptr < 2 ^ 64 ∧
    memory.copyFromUser pml4 (add64 array (mul64 i 8)) 8 = (true, wordBytes ptr) ∧ HoldsString memory pml4 ptr strings[i]
  ended : array ≠ 0 → strings.length < limit →
    memory.copyFromUser pml4 (add64 array (mul64 strings.length 8)) 8 = (true, wordBytes 0)

theorem HoldsString.read {ptr : Nat} {string : List UInt8} (holds : HoldsString memory pml4 ptr string) :
    readString pml4 memory ptr = some string := by
  have suffix : ∀ left idx, idx ≤ string.length → string.length ≤ idx + left →
      readStringFrom pml4 memory ptr left idx = some (string.drop idx) := by
    intro left
    induction left with
    | zero =>
      intro idx low high
      rw [drop_eq_nil_of_le (Nat.add_zero idx ▸ high)]
      rfl
    | succ left ih =>
      intro idx low high
      rw [readStringFrom]
      by_cases hin : idx < string.length
      · have nz := holds.nonzero _ (getElem_mem hin)
        simp only [holds.bytes idx hin, Bool.not_true, Bool.false_eq_true, if_false, headD_cons, nz]
        rw [ih (idx + 1) (by omega) (by omega), Option.map_some, ← drop_eq_getElem_cons hin]
      · have atEnd : idx = string.length := by omega
        simp only [atEnd, holds.ended, Bool.not_true, Bool.false_eq_true, if_false, headD_cons, if_true, drop_length]
  exact suffix 1023 0 (Nat.zero_le _) (by have := holds.short; omega)

theorem HoldsArray.read {array limit : Nat} {strings : List (List UInt8)}
    (holds : HoldsArray memory pml4 array limit strings) : argStrings memory pml4 array limit = strings := by
  have suffix : ∀ left i, i ≤ strings.length → i + left = limit → array ≠ 0 →
      argStringsFrom memory pml4 array left i = strings.drop i := by
    intro left
    induction left with
    | zero =>
      intro i low full _
      have := holds.count
      rw [drop_eq_nil_of_le (by omega)]
      rfl
    | succ left ih =>
      intro i low full given
      rw [argStringsFrom]
      by_cases hin : i < strings.length
      · obtain ⟨ptr, nz, lt, copied, string⟩ := holds.entries i hin
        simp only [copied, Bool.not_true, Bool.false_eq_true, if_false, wordValue_wordBytes lt, nz, string.read]
        rw [ih (i + 1) (by omega) (by omega) given, ← drop_eq_getElem_cons hin]
      · have atEnd : i = strings.length := by omega
        subst atEnd
        simp only [holds.ended given (by omega), Bool.not_true, Bool.false_eq_true, if_false,
          @wordValue_wordBytes 0 (by decide), if_true, drop_length]
  unfold argStrings
  split
  next given => exact suffix limit 0 (Nat.zero_le _) (Nat.zero_add _) given
  next miss => exact (holds.none (not_not.mp miss)).symm

/-- The stack of a program that was given these arguments: the count, the two arrays and their ends lie at the stack
pointer, and above them the strings, of which no two overlap. -/
structure Decodes (phys : Nat → Nat) (start : ExecStart) (argv envp : List (List UInt8)) (argvPtrs envpPtrs : List Nat) :
    Prop where
  argc : argvPtrs.length = argv.length
  envc : envpPtrs.length = envp.length
  words : ∀ i value, (argv.length :: (argvPtrs ++ 0 :: (envpPtrs ++ [0])))[i]? = some value →
    stackWord phys start.stack.memory (start.rsp + 8 * i) = value
  strings : ∀ copy ∈ (argvPtrs ++ envpPtrs).zip (argv ++ envp),
    stackBytes phys start.stack.memory copy.1 (copy.2.length + 1) = copy.2 ++ [0]
  rdi : start.rdi = argv.length
  rsi : start.rsi = if argv = [] then 0 else start.rsp + 8
  rdx : start.rdx = if envp = [] then 0 else start.rsp + 8 * (argv.length + 2)
  onStack : stackBase ≤ start.rsp
  above : ∀ copy ∈ (argvPtrs ++ envpPtrs).zip (argv ++ envp),
    start.rsp + 8 * (argv.length + envp.length + 3) ≤ copy.1 ∧ copy.1 + (copy.2.length + 1) ≤ userStackTop
  apart : ((argvPtrs ++ envpPtrs).zip (argv ++ envp)).Pairwise fun earlier later =>
    later.1 + (later.2.length + 1) ≤ earlier.1

theorem copies_placed (argv envp : List (List UInt8)) :
    ((argvPlaces argv ++ envpPlaces argv envp).zip (argv ++ envp)).map (Prod.map id terminated) =
      placed 8 userStackTop (wholeStrings argv envp) := by
  have part : ∀ cur (strings : List (List UInt8)), (((placed 8 cur (strings.map terminated)).map Prod.fst).zip strings).map
      (Prod.map id terminated) = placed 8 cur (strings.map terminated) := by
    intro cur strings
    induction strings generalizing cur with
    | nil => rfl
    | cons string strings ih => exact congrArg _ (ih _)
  rw [zip_append (length_argvPlaces argv), map_append, wholeStrings, placed_append, argvPlaces, envpPlaces, part, part]

theorem mem_wholeStack {argv envp : List (List UInt8)} {place : Nat} {object : List UInt8}
    (mem : (place, object) ∈ placed 8 userStackTop (wholeStrings argv envp) ∨ (place, object) ∈
      placed 8 (lowest 8 userStackTop (wholeStrings argv envp)) ((vector argv envp).reverse.map wordBytes)) :
    (place, object) ∈ placed 8 userStackTop (wholeStack argv envp) := by
  rw [wholeStack, placed_append]
  exact mem_append.mpr mem

theorem vector_small {argv envp : List (List UInt8)} (few : argv.length ≤ maxArgc)
    (room : stackBase ≤ lowest 8 userStackTop (wholeStrings argv envp)) : ∀ value ∈ vector argv envp, value < 2 ^ 64 := by
  have base : 0 < stackBase := by decide
  have top : userStackTop < 2 ^ 64 := by decide
  have places : ∀ place ∈ argvPlaces argv ++ envpPlaces argv envp, place ≤ userStackTop := by
    intro place mem
    rw [argvPlaces, envpPlaces, ← map_append, ← placed_append] at mem
    obtain ⟨copy, placed_, rfl⟩ := mem_map.mp mem
    have within := placed_within (by rw [wholeStrings] at room; omega) placed_
    omega
  intro value mem
  simp only [vector, mem_cons, mem_append, not_mem_nil, or_false] at mem
  rcases mem with rfl | inArgv | rfl | inEnvp | rfl
  · exact Nat.lt_of_le_of_lt few (by decide)
  · exact Nat.lt_of_le_of_lt (places value (mem_append_left _ inArgv)) top
  · decide
  · exact Nat.lt_of_le_of_lt (places value (mem_append_right _ inEnvp)) top
  · decide

theorem decodes_of_fits {phys : Nat → Nat} {userArgv userEnvp : Nat} {argv envp : List (List UInt8)}
    (stackFrames : StackFrames phys) (ne : Apart ready pml4 phys) (isArgv : argStrings ready pml4 userArgv maxArgc = argv)
    (isEnvp : argStrings ready pml4 userEnvp maxEnvp = envp) (fits : stackNeed argv envp ≤ stackSize) :
    Decodes phys (buildStack phys pml4 userArgv userEnvp ready) argv envp (argvPlaces argv) (envpPlaces argv envp) := by
  have room := (fits_iff argv envp).mpr fits
  have base : 0 < stackBase := by decide
  have startReady := start_ready ready
  have few : argv.length ≤ maxArgc := isArgv ▸ length_argStrings userArgv maxArgc
  obtain ⟨runs, places⟩ := strings_copied stackFrames ne isArgv isEnvp
  have whole := buildStack_runs stackFrames ne isArgv isEnvp
  rw [Runs, if_pos room] at whole
  have lowerWhole := @lowest_le _ 8 (lowest 8 userStackTop (wholeStrings argv envp))
    ((vector argv envp).reverse.map wordBytes)
  have roomStrings : stackBase ≤ lowest 8 userStackTop (wholeStrings argv envp) := by
    rw [wholeStack, lowest_append] at room
    omega
  rw [Runs, if_pos roomStrings] at runs
  obtain ⟨ofArgv, ofEnvp⟩ := places roomStrings
  have ready2 := runs.ready startReady roomStrings
  have lt := vector_small few roomStrings
  have hal : 8 ∣ lowest 8 userStackTop (wholeStrings argv envp) := lowest_dvd (by decide) _
  have length := length_vector argv envp
  have roomWords : stackBase + 8 * (argv.length + envp.length + 3) ≤ lowest 8 userStackTop (wholeStrings argv envp) := by
    rw [wholeStack, lowest_append, le_lowest_iff (by decide) base hal, room_words, length_reverse, length] at room
    exact room
  have cur2 := runs.cur
  have built := buildStack_eq phys pml4 userArgv userEnvp ready
  simp only [ofArgv, ofEnvp] at built
  generalize envpCopied phys pml4 userArgv userEnvp ready = copied at *
  dsimp only at cur2
  have count := length_argvPlaces argv
  have countEnvp := length_envpPlaces argv envp
  -- the cursor after each part of the vector
  have cursor : ∀ values : List Nat, values.length ≤ argv.length + envp.length + 3 →
      (pushPointers phys values copied.2).cur = lowest 8 userStackTop (wholeStrings argv envp) - 8 * values.length := by
    intro values short
    rw [pushPointers_cur stackFrames ready2 (by omega), cur2]
  have rsp : (buildStack phys pml4 userArgv userEnvp ready).rsp =
      lowest 8 userStackTop (wholeStrings argv envp) - 8 * (argv.length + envp.length + 3) := by
    have size : (vector argv envp).length ≤ argv.length + envp.length + 3 := by omega
    rw [built, ← length, ← cursor _ size, count]
    rfl
  have held : ∀ copy ∈ (argvPlaces argv ++ envpPlaces argv envp).zip (argv ++ envp),
      (copy.1, terminated copy.2) ∈ placed 8 userStackTop (wholeStrings argv envp) := by
    intro copy mem
    rw [← copies_placed]
    exact mem_map_of_mem (f := Prod.map id terminated) mem
  have longer : ∀ string, (terminated string).length = string.length + 1 := fun string => length_append
  constructor
  · exact count
  · exact countEnvp
  · intro i value h
    have mem := placed_reverse hal (vector argv envp) (by omega) h
    have bytes := whole.bytes (mem_wholeStack (.inr mem))
    rw [length_wordBytes, length, ← rsp] at bytes
    rw [stackWord, bytes, wordValue_wordBytes (lt value (mem_of_getElem? h))]
  · intro copy mem
    have bytes := whole.bytes (mem_wholeStack (.inl (held copy mem)))
    rw [longer] at bytes
    exact bytes
  · rw [built]
    exact count
  · rw [rsp, built]
    dsimp only
    rw [count, cursor _ (by simp only [length_append, length_cons, length_nil]; omega)]
    by_cases none_ : argv = []
    · rw [if_pos none_, if_neg (by simp [none_])]
    · have some_ := length_pos_iff.mpr none_
      rw [if_neg none_, if_pos some_]
      simp only [length_append, length_cons, length_nil]
      omega
  · rw [rsp, built]
    dsimp only
    rw [countEnvp, cursor _ (by simp only [length_append, length_cons, length_nil]; omega)]
    by_cases none_ : envp = []
    · rw [if_pos none_, if_neg (by simp [none_])]
    · have some_ := length_pos_iff.mpr none_
      rw [if_neg none_, if_pos some_]
      simp only [length_append, length_cons, length_nil]
      omega
  · rw [rsp]
    omega
  · intro copy mem
    have within := placed_within (by omega) (held copy mem)
    rw [longer] at within
    rw [rsp]
    omega
  · have apart_ := @placed_apart _ 8 userStackTop (wholeStrings argv envp) (by omega)
    rw [← copies_placed, pairwise_map] at apart_
    apply apart_.imp
    intro earlier later lower
    have lower' : later.1 + (terminated later.2).length ≤ earlier.1 := lower
    rw [longer] at lower'
    exact lower'

/-- The stack decodes to the arguments that the caller passed. -/
theorem exec_stack_decodes (mapped : mapStack newPML4 memory = (some frames, ready)) (held : CallerHeld memory ready pml4)
    (behind : Nat → Nat) {userArgv userEnvp : Nat} {argv envp : List (List UInt8)}
    (holdsArgv : HoldsArray ready pml4 userArgv maxArgc argv) (holdsEnvp : HoldsArray ready pml4 userEnvp maxEnvp envp)
    (fits : stackNeed argv envp ≤ stackSize) :
    ∃ argvPtrs envpPtrs, Decodes (stackPhys frames behind)
      (buildStack (stackPhys frames behind) pml4 userArgv userEnvp ready) argv envp argvPtrs envpPtrs :=
  ⟨_, _, decodes_of_fits (stackFrames_of_mapped mapped behind) (apart_of_held mapped held behind) holdsArgv.read
    holdsEnvp.read fits⟩

end

section

/-- A process with 128 pointers to a string of 160 bytes, and behind them an array of one pointer, to `hi`. -/
def caller : PageMemory := ⟨⟨fun _ => 0, fun _ => 0⟩,
  fun frame i =>
    if frame = 0x2000 then if i = 0 then 0x3007 else 0
    else if frame = 0x3000 then if i = 0 then 0x4007 else 0
    else if frame = 0x4000 then if i = 2 then 0x5007 else 0
    else if frame = 0x5000 then if i = 0 then 0x6007 else if i = 1 then 0x7007 else 0
    else if frame = 0x6000 then if i < 128 then 0x401000 else if i = 128 then 0x401800 else 0
    else if frame = 0x7000 then if i < 20 then 0x4242424242424242 else if i = 256 then 0x6968 else 0
    else 0, []⟩

def callerFrames : List Nat := [0x2000, 0x3000, 0x4000, 0x5000, 0x6000, 0x7000]

/-- The memory when the caller's stack is mapped. -/
def callerReady : PageMemory := (mapStack 0x1000 caller).2

def callerStack : List Nat := (mapStack 0x1000 caller).1.getD []

/-- What an evaluation of the caller's memory shows. -/
theorem caller_evaluated : (mapStack 0x1000 caller).1 = some callerStack ∧
    (∀ k (inside : k < [0x68, 0x69].length), caller.copyFromUser 0x2000 (add64 0x401800 k) 1 = (true, [[0x68, 0x69][k]])) ∧
    caller.copyFromUser 0x2000 (add64 0x401800 2) 1 = (true, [0]) ∧
    caller.copyFromUser 0x2000 (add64 0x400400 (mul64 0 8)) 8 = (true, wordBytes 0x401800) ∧
    caller.copyFromUser 0x2000 (add64 0x400400 (mul64 1 8)) 8 = (true, wordBytes 0) ∧
    (∀ k < 160, caller.copyFromUser 0x2000 (add64 0x401000 k) 1 = (true, [0x42])) ∧
    caller.copyFromUser 0x2000 (add64 0x401000 160) 1 = (true, [0]) ∧
    ∀ i < 128, caller.copyFromUser 0x2000 (add64 0x400000 (mul64 i 8)) 8 = (true, wordBytes 0x401000) := by
  refine ⟨?_, ?_, ?_, ?_, ?_, ?_, ?_, ?_⟩
  all_goals decide +kernel

theorem caller_mapped : mapStack 0x1000 caller = (some callerStack, callerReady) := Prod.ext caller_evaluated.1 rfl

theorem caller_same : ∀ frame ∈ callerFrames, callerReady.words frame = caller.words frame := by
  simp only [callerFrames, forall_mem_cons, not_mem_nil, false_implies, implies_true, and_true]
  exact ⟨rfl, rfl, rfl, rfl, rfl, rfl⟩

theorem caller_reads {frame : Nat} (reads : callerReady.Reads 0x2000 frame) : frame ∈ callerFrames := by
  have closed : ∀ table ∈ callerFrames, ∀ i < tableSize, present (callerReady.words table i) = true →
      entryAddr (callerReady.words table i) ∈ callerFrames ∧ huge (callerReady.words table i) = false := by
    intro table mem i _
    rw [caller_same table mem]
    unfold caller
    dsimp only
    repeat' split
    all_goals decide
  have root : 0x2000 ∈ callerFrames := by decide
  rcases reads with ⟨path, level, hin, hr⟩ | ⟨virtAddr, page, hf, k, short, rfl⟩
  · induction path generalizing level frame with
    | nil =>
      cases hr
      exact root
    | cons i path ih =>
      obtain ⟨parent, above, named⟩ := Option.bind_eq_some_iff.mp hr
      have isTable := ih parent.1 hin.tail above
      obtain ⟨_, addr, h, _⟩ := below_eq_some named
      have next := (closed parent.2 isTable i hin.head h).1
      rwa [← addr] at next
  · obtain ⟨level, entry, leaf_, rfl⟩ := vaddrToPhysPage_leaf hf
    obtain ⟨rfl, mem⟩ := @leaf_closed _ _ _ (· ∈ callerFrames) closed root _ _ leaf_
    have hal := (entryAddr_mappable entry).aligned
    have eq : frameOf (maskedAddress virtAddr 0 entry + k) = entryAddr entry := by
      have off : virtAddr % 2 ^ offsetBits 0 + k < 4096 := by
        simp only [offsetBits] at short ⊢
        omega
      simp only [frameOf, maskedAddress, pageSize] at hal ⊢
      omega
    rwa [eq]

theorem caller_held : CallerHeld caller callerReady 0x2000 := by
  rintro frame reads
  right
  rintro ⟨k, _, rfl⟩
  have lt : ∀ frame ∈ callerFrames, frame < physBase := by decide
  have := lt _ (caller_reads reads)
  omega

theorem caller_copies (src len : Nat) : callerReady.copyFromUser 0x2000 src len = caller.copyFromUser 0x2000 src len :=
  (copyFromUser_congr (fun frame reads => (caller_same frame (caller_reads reads)).symm) src len).symm

theorem caller_hi : HoldsString callerReady 0x2000 0x401800 [0x68, 0x69] := by
  obtain ⟨_, bytes, ended, _⟩ := caller_evaluated
  constructor
  · decide
  · simp only [caller_copies]
    exact bytes
  · simp
  · rw [caller_copies]
    exact ended

theorem caller_argument : HoldsArray callerReady 0x2000 0x400400 maxArgc [[0x68, 0x69]] := by
  obtain ⟨_, _, _, ptr, ended, _⟩ := caller_evaluated
  constructor
  · decide
  · intro absent
    exact absurd absent (by decide)
  · intro i hin
    obtain rfl : i = 0 := Nat.lt_one_iff.mp hin
    exact ⟨0x401800, by decide, by decide, (caller_copies _ _).trans ptr, caller_hi⟩
  · rw [caller_copies]
    exact fun _ _ => ended

theorem no_array (memory : PageMemory) (pml4 limit : Nat) : HoldsArray memory pml4 0 limit [] := by
  constructor
  · exact Nat.zero_le _
  · intro _
    rfl
  · intro i hin
    exact absurd hin (Nat.not_lt_zero i)
  · intro given
    exact absurd rfl given

theorem one_argument_decodes : ∃ argvPtrs envpPtrs, Decodes (stackPhys callerStack fun _ => 0)
    (buildStack (stackPhys callerStack fun _ => 0) 0x2000 0x400400 0 callerReady) [[0x68, 0x69]] [] argvPtrs envpPtrs :=
  exec_stack_decodes caller_mapped caller_held (fun _ => 0) caller_argument (no_array _ _ _) (by decide)

theorem one_argument_inBounds : argStrings callerReady 0x2000 0x400400 maxArgc = [[0x68, 0x69]] ∧
    ∀ write ∈ (buildStack (stackPhys callerStack fun _ => 0) 0x2000 0x400400 0 callerReady).stack.writes, write.InBounds := by
  refine ⟨caller_argument.read, (exec_stack_inBounds_iff caller_mapped caller_held (fun _ => 0) 0x400400 0).mpr ?_⟩
  rw [caller_argument.read, (no_array callerReady 0x2000 maxEnvp).read]
  decide

theorem caller_string : HoldsString callerReady 0x2000 0x401000 (replicate 160 0x42) := by
  obtain ⟨_, _, _, _, _, copied, ended, _⟩ := caller_evaluated
  have bytes : ∀ k < 160, callerReady.copyFromUser 0x2000 (add64 0x401000 k) 1 = (true, [0x42]) := by
    simp only [caller_copies]
    exact copied
  constructor
  · rw [length_replicate]
    decide
  · grind
  · intro byte mem
    rw [eq_of_mem_replicate mem]
    decide
  · rw [length_replicate, caller_copies]
    exact ended

theorem caller_array {limit : Nat} (few : limit ≤ 128) :
    HoldsArray callerReady 0x2000 0x400000 limit (replicate limit (replicate 160 0x42)) := by
  have ptrs : ∀ i < 128, callerReady.copyFromUser 0x2000 (add64 0x400000 (mul64 i 8)) 8 = (true, wordBytes 0x401000) := by
    simp only [caller_copies]
    exact caller_evaluated.2.2.2.2.2.2.2
  constructor
  · rw [length_replicate]
  · intro absent
    exact absurd absent (by decide)
  · intro i hin
    rw [length_replicate] at hin
    refine ⟨0x401000, by decide, by decide, ptrs i (by omega), ?_⟩
    rw [getElem_replicate]
    exact caller_string
  · simp

/-- As many arguments and variables as are allowed, of 160 bytes each, do not fit. -/
theorem full_arguments_overrun : ∃ write ∈
    (buildStack (stackPhys callerStack fun _ => 0) 0x2000 0x400000 0x400000 callerReady).stack.writes, ¬write.InBounds := by
  by_contra hin
  simp only [not_exists, not_and, not_not] at hin
  have fits := (inBounds_iff (stackFrames_of_mapped caller_mapped fun _ => 0)
    (apart_of_held caller_mapped caller_held fun _ => 0)).mp hin
  rw [(@caller_array maxArgc (by decide)).read, (@caller_array maxEnvp (by decide)).read] at fits
  exact absurd fits (by decide +kernel)

end

end RosKernel.Process
