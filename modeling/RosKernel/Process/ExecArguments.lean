import RosKernel.Process.ExecStack

/-! Arguments and environment on the stack of a new program.

The caller's memory is read while the stack is written. The stack's frames were free when they were taken, so nothing
that is read lies in them, and as long as the stack has room the run is that of a sequence of pushes. The first push
without room writes outside the stack.
-/

set_option autoImplicit false

namespace RosKernel.Process

open Library Memory List

section

variable (memory : PageMemory) (pml4 : Nat)

/-- The strings of an array from entry `i` on, up to the first that is missing or cannot be read. -/
def argStringsFrom (array : Nat) : Nat → Nat → List (List UInt8)
  | 0, _ => []
  | left + 1, i =>
    let read := memory.copyFromUser pml4 (add64 array (mul64 i 8)) 8
    if !read.1 then []
    else if wordValue read.2 = 0 then []
    else
      match readString pml4 memory (wordValue read.2) with
      | none => []
      | some string => string :: argStringsFrom array left (i + 1)

def argStrings (array limit : Nat) : List (List UInt8) :=
  if array ≠ 0 then argStringsFrom memory pml4 array limit 0 else []

variable {memory pml4}

theorem length_readString {userPtr : Nat} {string : List UInt8} (read : readString pml4 memory userPtr = some string) :
    string.length ≤ 1023 := by
  have bound : ∀ left idx string, readStringFrom pml4 memory userPtr left idx = some string → string.length ≤ left := by
    intro left
    induction left with
    | zero =>
      intro idx string read
      cases read
      exact Nat.le_refl 0
    | succ left ih =>
      intro idx string read
      rw [readStringFrom] at read
      simp only at read
      split at read
      · exact nomatch read
      · split at read
        · cases read
          exact Nat.zero_le _
        · obtain ⟨rest, hf, rfl⟩ := Option.map_eq_some_iff.mp read
          exact Nat.succ_le_succ (ih _ _ hf)
  exact bound 1023 0 string read

theorem argStringsFrom_bounds {array left i : Nat} :
    (argStringsFrom memory pml4 array left i).length ≤ left ∧
      ∀ string ∈ argStringsFrom memory pml4 array left i, string.length ≤ 1023 := by
  induction left generalizing i with
  | zero => exact ⟨Nat.le_refl 0, fun string mem => nomatch mem⟩
  | succ left ih =>
    rw [argStringsFrom]
    split
    · exact ⟨Nat.zero_le _, fun string mem => nomatch mem⟩
    · split
      · exact ⟨Nat.zero_le _, fun string mem => nomatch mem⟩
      · cases read : readString pml4 memory (wordValue (memory.copyFromUser pml4 (add64 array (mul64 i 8)) 8).2) with
        | none => exact ⟨Nat.zero_le _, fun string mem => nomatch mem⟩
        | some string =>
          refine ⟨Nat.succ_le_succ ih.1, fun other mem => ?_⟩
          cases mem with
          | head => exact length_readString read
          | tail _ later => exact ih.2 other later

theorem length_argStrings (array limit : Nat) : (argStrings memory pml4 array limit).length ≤ limit := by
  unfold argStrings
  split
  · exact argStringsFrom_bounds.1
  · exact Nat.zero_le _

end

section

variable {phys : Nat → Nat} {stack between stack' : ExecStack} {objects more : List (List UInt8)}

/-- The pushes were made, or one of them wrote outside the stack. -/
def Runs (phys : Nat → Nat) (stack : ExecStack) (objects : List (List UInt8)) (stack' : ExecStack) : Prop :=
  if stackBase ≤ lowest 8 stack.cur objects then Pushes phys stack objects stack'
  else ∃ write ∈ stack'.writes, ¬write.InBounds

theorem Runs.append (ready : stack.Ready) (first : Runs phys stack objects between)
    (snd : between.Ready → Pushes phys stack objects between → Runs phys between more stack')
    (writes : between.writes ⊆ stack'.writes) : Runs phys stack (objects ++ more) stack' := by
  unfold Runs at first
  by_cases room : stackBase ≤ lowest 8 stack.cur objects
  · rw [if_pos room] at first
    have rest := snd (first.ready ready room) first
    unfold Runs at rest ⊢
    rw [first.cur] at rest
    rw [lowest_append]
    by_cases roomAll : stackBase ≤ lowest 8 (lowest 8 stack.cur objects) more
    · rw [if_pos roomAll] at rest ⊢
      exact first.append ready rest (by rw [lowest_append]; exact roomAll)
    · rw [if_neg roomAll] at rest ⊢
      exact rest
  · rw [if_neg room] at first
    obtain ⟨write, mem, out⟩ := first
    have lower := @lowest_le _ 8 (lowest 8 stack.cur objects) more
    rw [Runs, lowest_append, if_neg (by omega)]
    exact ⟨write, writes mem, out⟩

theorem pushWord_runs (frames : StackFrames phys) (ready : stack.Ready) (value : Nat) :
    Runs phys stack [wordBytes value] (pushWord phys value stack) := by
  have length := length_wordBytes value
  rw [Runs, lowest, lowest, length]
  by_cases room : stackBase ≤ lowered 8 stack.cur 8
  · rw [if_pos room]
    exact pushWord_pushes frames ready room
  · rw [if_neg room]
    exact pushWord_outside ready (Nat.lt_of_not_le room)

theorem pushBytes_runs (frames : StackFrames phys) (ready : stack.Ready) {object : List UInt8} (filled : object ≠ [])
    (short : object.length < 2 ^ 32) : Runs phys stack [object] (pushBytes phys object stack).2 := by
  rw [Runs, lowest, lowest]
  by_cases room : stackBase ≤ lowered 8 stack.cur object.length
  · rw [if_pos room]
    exact (pushBytes_pushes frames ready room).1
  · rw [if_neg room]
    exact pushBytes_outside ready filled short (Nat.lt_of_not_le room)

theorem pushPointers_writes (values : List Nat) (stack : ExecStack) :
    stack.writes ⊆ (pushPointers phys values stack).writes := by
  induction values with
  | nil => exact List.Subset.refl _
  | cons value values ih => exact List.Subset.trans ih (pushWord_writes _ _)

theorem pushPointers_runs (frames : StackFrames phys) (ready : stack.Ready) (values : List Nat) :
    Runs phys stack (values.reverse.map wordBytes) (pushPointers phys values stack) := by
  induction values with
  | nil =>
    rw [Runs, reverse_nil, map_nil, lowest, if_pos ready.above]
    exact .nil stack
  | cons value values ih =>
    rw [reverse_cons, map_append]
    exact ih.append ready (fun between _ => pushWord_runs frames between value) (pushWord_writes _ _)

end

section

variable {phys : Nat → Nat} {memory : PageMemory} {pml4 : Nat} {stack : ExecStack}

/-- No frame of the stack is looked at for the caller's memory. -/
def Apart (memory : PageMemory) (pml4 : Nat) (phys : Nat → Nat) : Prop :=
  ∀ frame, memory.Reads pml4 frame → ∀ j < userStackPages, frame ≠ phys j

/-- Memory has changed in the stack's frames at most. -/
def Elsewhere (phys : Nat → Nat) (memory memory' : PageMemory) : Prop :=
  ∀ frame i, (∀ j < userStackPages, frame ≠ phys j) → memory'.words frame i = memory.words frame i

section

variable {memory' : PageMemory} (ne : Apart memory pml4 phys) (elsewhere : Elsewhere phys memory memory')
include ne elsewhere

theorem Apart.copyFromUser (srcUser len : Nat) :
    memory'.copyFromUser pml4 srcUser len = memory.copyFromUser pml4 srcUser len := by
  apply copyFromUser_congr
  intro frame reads
  funext i
  exact elsewhere frame i (ne frame reads)

theorem Apart.readString (userPtr : Nat) : readString pml4 memory' userPtr = readString pml4 memory userPtr := by
  have steps : ∀ left idx, readStringFrom pml4 memory' userPtr left idx = readStringFrom pml4 memory userPtr left idx := by
    intro left
    induction left with
    | zero => exact fun _ => rfl
    | succ left ih =>
      intro idx
      rw [readStringFrom, readStringFrom, ne.copyFromUser elsewhere, ih]
  exact steps 1023 0

end

def terminated (string : List UInt8) : List UInt8 := string ++ [0]

theorem copyUserString_writes (userPtr : Nat) (stack : ExecStack) :
    stack.writes ⊆ (copyUserString phys pml4 userPtr stack).2.writes := by
  unfold copyUserString
  split
  · exact List.Subset.refl _
  · split
    · exact List.Subset.refl _
    · exact pushBytes_writes _ _

theorem copyStrings_writes (array left i : Nat) (stack : ExecStack) :
    stack.writes ⊆ (copyStrings phys pml4 array left i stack).2.writes := by
  induction left generalizing i stack with
  | zero => exact List.Subset.refl _
  | succ left ih =>
    rw [copyStrings]
    simp only
    split
    · exact List.Subset.refl _
    · split
      · exact List.Subset.refl _
      · split
        · exact copyUserString_writes _ _
        · exact List.Subset.trans (copyUserString_writes _ _) (ih _ _)

theorem copyArray_writes (array limit : Nat) (stack : ExecStack) :
    stack.writes ⊆ (copyArray phys pml4 array limit stack).2.writes := by
  unfold copyArray
  split
  · exact copyStrings_writes _ _ _ _
  · exact List.Subset.refl _

/-- What is left of a stack after strings were copied, and where the copies are. -/
def Copies (phys : Nat → Nat) (stack : ExecStack) (strings : List (List UInt8)) (result : List Nat × ExecStack) : Prop :=
  Runs phys stack (strings.map terminated) result.2 ∧
    (stackBase ≤ lowest 8 stack.cur (strings.map terminated) →
      result.1 = (placed 8 stack.cur (strings.map terminated)).map Prod.fst)

theorem Copies.nothing (ready : stack.Ready) : Copies phys stack [] ([], stack) := by
  constructor
  · rw [Runs, map_nil, lowest, if_pos ready.above]
    exact .nil stack
  · intro _
    rfl

theorem copyStrings_copies (frames : StackFrames phys) (ne : Apart memory pml4 phys) {array left i : Nat}
    (ready : stack.Ready) (elsewhere : Elsewhere phys memory stack.memory) :
    Copies phys stack (argStringsFrom memory pml4 array left i) (copyStrings phys pml4 array left i stack) := by
  induction left generalizing i stack with
  | zero => exact .nothing ready
  | succ left ih =>
    rw [copyStrings, argStringsFrom, ne.copyFromUser elsewhere]
    simp only
    split
    · exact .nothing ready
    split
    · exact .nothing ready
    next named =>
    generalize wordValue (memory.copyFromUser pml4 (add64 array (mul64 i 8)) 8).2 = userPtr at named ⊢
    unfold copyUserString
    rw [if_neg named, ne.readString elsewhere]
    cases read : readString pml4 memory userPtr with
    | none => exact .nothing ready
    | some string =>
      have length : (terminated string).length = string.length + 1 := length_append
      have short := length_readString read
      have one : Runs phys stack [terminated string] (pushBytes phys (terminated string) stack).2 :=
        pushBytes_runs frames ready (by simp [terminated]) (by omega)
      change Copies phys stack _ (if (pushBytes phys (terminated string) stack).1 = 0 then _ else _)
      by_cases room : stackBase ≤ lowered 8 stack.cur (terminated string).length
      · obtain ⟨pushes, dest⟩ := pushBytes_pushes frames ready room
        have nz : (pushBytes phys (terminated string) stack).1 ≠ 0 := by
          have base : 0 < stackBase := by decide
          omega
        have further := pushes.ready ready room
        have rest := @ih _ (i + 1) further fun frame j away => (pushes.outside frame j away).trans (elsewhere frame j away)
        rw [if_neg nz]
        constructor
        · exact one.append ready (fun _ _ => rest.1) (copyStrings_writes _ _ _ _)
        · intro roomAll
          have later := rest.2 (by rw [pushes.cur]; exact roomAll)
          change (pushBytes phys (terminated string) stack).1 ::
            (copyStrings phys pml4 array left (i + 1) (pushBytes phys (terminated string) stack).2).1 = _
          rw [later, pushes.cur, dest]
          rfl
      · -- without room for this string the rest does not matter
        have lower := @lowest_le _ 8 (lowered 8 stack.cur (terminated string).length)
          ((argStringsFrom memory pml4 array left (i + 1)).map terminated)
        have out : ¬ stackBase ≤ lowest 8 stack.cur
            ((string :: argStringsFrom memory pml4 array left (i + 1)).map terminated) := by
          rw [map_cons, lowest]
          omega
        rw [Runs, lowest, lowest, if_neg room] at one
        obtain ⟨write, mem, bad⟩ := one
        refine ⟨?_, fun roomAll => absurd roomAll out⟩
        rw [Runs, if_neg out]
        split
        · exact ⟨write, mem, bad⟩
        · exact ⟨write, copyStrings_writes _ _ _ _ mem, bad⟩

theorem copyArray_copies (frames : StackFrames phys) (ne : Apart memory pml4 phys) {array limit : Nat}
    (ready : stack.Ready) (elsewhere : Elsewhere phys memory stack.memory) :
    Copies phys stack (argStrings memory pml4 array limit) (copyArray phys pml4 array limit stack) := by
  unfold argStrings copyArray
  split
  · exact copyStrings_copies frames ne ready elsewhere
  · exact .nothing ready

end

section

variable {phys : Nat → Nat} {memory : PageMemory} {pml4 userArgv userEnvp : Nat}

/-- Everything that is pushed for these arguments, in order. -/
def wholeStrings (argv envp : List (List UInt8)) : List (List UInt8) := argv.map terminated ++ envp.map terminated

def argvPlaces (argv : List (List UInt8)) : List Nat := (placed 8 userStackTop (argv.map terminated)).map Prod.fst

def envpPlaces (argv envp : List (List UInt8)) : List Nat :=
  (placed 8 (lowest 8 userStackTop (argv.map terminated)) (envp.map terminated)).map Prod.fst

/-- What lies at the final cursor: the count, the two arrays and their ends. -/
def vector (argv envp : List (List UInt8)) : List Nat :=
  argv.length :: (argvPlaces argv ++ 0 :: (envpPlaces argv envp ++ [0]))

def wholeStack (argv envp : List (List UInt8)) : List (List UInt8) :=
  wholeStrings argv envp ++ (vector argv envp).reverse.map wordBytes

theorem length_argvPlaces (argv : List (List UInt8)) : (argvPlaces argv).length = argv.length := by
  have eq := congrArg List.length (@placed_snd _ 8 userStackTop (argv.map terminated))
  simpa [argvPlaces] using eq

theorem length_envpPlaces (argv envp : List (List UInt8)) : (envpPlaces argv envp).length = envp.length := by
  have eq := congrArg List.length
    (@placed_snd _ 8 (lowest 8 userStackTop (argv.map terminated)) (envp.map terminated))
  simpa [envpPlaces] using eq

theorem length_vector (argv envp : List (List UInt8)) : (vector argv envp).length = argv.length + envp.length + 3 := by
  simp only [vector, length_cons, length_append, length_argvPlaces, length_envpPlaces, length_nil]
  omega

section

variable (phys : Nat → Nat) (pml4 userArgv userEnvp : Nat) (memory : PageMemory)

def argvCopied : List Nat × ExecStack := copyArray phys pml4 userArgv maxArgc ⟨userStackTop, memory, []⟩

def envpCopied : List Nat × ExecStack :=
  copyArray phys pml4 userEnvp maxEnvp (argvCopied phys pml4 userArgv memory).2

theorem buildStack_eq : buildStack phys pml4 userArgv userEnvp memory =
    let argvPtrs := (argvCopied phys pml4 userArgv memory).1
    let envpPtrs := (envpCopied phys pml4 userArgv userEnvp memory).1
    let stack := (envpCopied phys pml4 userArgv userEnvp memory).2
    { rsp := (pushPointers phys (argvPtrs.length :: (argvPtrs ++ 0 :: (envpPtrs ++ [0]))) stack).cur
      rdi := argvPtrs.length
      rsi := if 0 < argvPtrs.length then (pushPointers phys (argvPtrs ++ 0 :: (envpPtrs ++ [0])) stack).cur else 0
      rdx := if 0 < envpPtrs.length then (pushPointers phys (envpPtrs ++ [0]) stack).cur else 0
      stack := pushPointers phys (argvPtrs.length :: (argvPtrs ++ 0 :: (envpPtrs ++ [0]))) stack } := by
  simp only [pushPointers, foldr_append, foldr_cons, foldr_nil]
  rfl

end

theorem start_ready (memory : PageMemory) : (⟨userStackTop, memory, []⟩ : ExecStack).Ready := by
  constructor
  · show 8 ∣ userStackTop
    decide
  · show stackBase ≤ userStackTop
    decide
  · exact Nat.le_refl _

theorem strings_copied (frames : StackFrames phys) (ne : Apart memory pml4 phys) {argv envp : List (List UInt8)}
    (isArgv : argStrings memory pml4 userArgv maxArgc = argv) (isEnvp : argStrings memory pml4 userEnvp maxEnvp = envp) :
    Runs phys ⟨userStackTop, memory, []⟩ (wholeStrings argv envp) (envpCopied phys pml4 userArgv userEnvp memory).2 ∧
      (stackBase ≤ lowest 8 userStackTop (wholeStrings argv envp) →
        (argvCopied phys pml4 userArgv memory).1 = argvPlaces argv ∧
          (envpCopied phys pml4 userArgv userEnvp memory).1 = envpPlaces argv envp) := by
  have ready := start_ready memory
  obtain ⟨runs, places⟩ := @copyArray_copies phys memory pml4 _ frames ne userArgv maxArgc ready fun _ _ _ => rfl
  rw [isArgv] at runs places
  have snd : ∀ pushes : Pushes phys ⟨userStackTop, memory, []⟩ (argv.map terminated)
        (argvCopied phys pml4 userArgv memory).2, (argvCopied phys pml4 userArgv memory).2.Ready →
      Copies phys (argvCopied phys pml4 userArgv memory).2 envp (envpCopied phys pml4 userArgv userEnvp memory) := by
    intro pushes further
    rw [← isEnvp]
    exact copyArray_copies frames ne further pushes.outside
  constructor
  · exact runs.append ready (fun further pushes => (snd pushes further).1) (copyArray_writes _ _ _)
  · intro room
    rw [wholeStrings, lowest_append] at room
    have lower := @lowest_le _ 8 (lowest 8 userStackTop (argv.map terminated)) (envp.map terminated)
    have roomArgv : stackBase ≤ lowest 8 userStackTop (argv.map terminated) := Nat.le_trans room lower
    have pushes := runs
    rw [Runs, if_pos roomArgv] at pushes
    obtain ⟨_, later⟩ := snd pushes (pushes.ready ready roomArgv)
    have cur : (argvCopied phys pml4 userArgv memory).2.cur = lowest 8 userStackTop (argv.map terminated) := pushes.cur
    rw [cur] at later
    exact ⟨places roomArgv, later room⟩

theorem buildStack_runs (frames : StackFrames phys) (ne : Apart memory pml4 phys) {argv envp : List (List UInt8)}
    (isArgv : argStrings memory pml4 userArgv maxArgc = argv) (isEnvp : argStrings memory pml4 userEnvp maxEnvp = envp) :
    Runs phys ⟨userStackTop, memory, []⟩ (wholeStack argv envp) (buildStack phys pml4 userArgv userEnvp memory).stack := by
  have ready := start_ready memory
  obtain ⟨runs, places⟩ := strings_copied frames ne isArgv isEnvp
  rw [buildStack_eq]
  simp only
  have writes := @pushPointers_writes phys
    ((argvCopied phys pml4 userArgv memory).1.length :: ((argvCopied phys pml4 userArgv memory).1 ++
      0 :: ((envpCopied phys pml4 userArgv userEnvp memory).1 ++ [0]))) (envpCopied phys pml4 userArgv userEnvp memory).2
  by_cases room : stackBase ≤ lowest 8 userStackTop (wholeStrings argv envp)
  · obtain ⟨ofArgv, ofEnvp⟩ := places room
    rw [ofArgv, ofEnvp, length_argvPlaces] at writes ⊢
    exact runs.append ready (fun further _ => pushPointers_runs frames further _) writes
  · -- a string went out already
    have lower := @lowest_le _ 8 (lowest 8 userStackTop (wholeStrings argv envp))
      ((vector argv envp).reverse.map wordBytes)
    rw [Runs, if_neg room] at runs
    obtain ⟨write, mem, out⟩ := runs
    rw [Runs, wholeStack, lowest_append, if_neg (by dsimp only; omega)]
    exact ⟨write, writes mem, out⟩

/-- What the arguments and their pointers need. -/
def stackNeed (argv envp : List (List UInt8)) : Nat :=
  ((argv ++ envp).map fun string => taken 8 (string.length + 1)).sum + 8 * (argv.length + envp.length + 3)

theorem room_words (values : List Nat) : room 8 (values.map wordBytes) = 8 * values.length := by
  induction values with
  | nil => rfl
  | cons value values ih =>
    have step : room 8 ((value :: values).map wordBytes) = taken 8 (wordBytes value).length + room 8 (values.map wordBytes) :=
      rfl
    rw [step, ih, length_wordBytes, length_cons, show taken 8 8 = 8 by decide]
    omega

theorem room_wholeStack (argv envp : List (List UInt8)) : room 8 (wholeStack argv envp) = stackNeed argv envp := by
  have strings : ∀ strings : List (List UInt8), room 8 (strings.map terminated) =
      (strings.map fun string => taken 8 (string.length + 1)).sum := by
    intro strings
    rw [room, map_map]
    congr 1
    apply map_congr_left
    intro string _
    simp [terminated]
  have split : ∀ first second : List (List UInt8), room 8 (first ++ second) = room 8 first + room 8 second := by
    intro first second
    simp [room]
  rw [wholeStack, wholeStrings, split, split, room_words, strings, strings, length_reverse, length_vector, stackNeed,
    map_append, sum_append]

theorem fits_iff (argv envp : List (List UInt8)) :
    stackBase ≤ lowest 8 userStackTop (wholeStack argv envp) ↔ stackNeed argv envp ≤ stackSize := by
  have size : stackBase + stackSize = userStackTop := by decide
  rw [le_lowest_iff (by decide) (by decide) ⟨userStackTop / 8, by decide⟩, room_wholeStack]
  omega

/-- The bytes at an address of the stack. -/
def stackBytes (phys : Nat → Nat) (memory : PageMemory) (addr count : Nat) : List UInt8 :=
  (range count).map fun k => memory.byteAt (spot phys (addr - stackBase + k))

def stackWord (phys : Nat → Nat) (memory : PageMemory) (addr : Nat) : Nat := wordValue (stackBytes phys memory addr 8)

theorem Pushes.bytes {stack stack' : ExecStack} {objects : List (List UInt8)} (pushes : Pushes phys stack objects stack')
    {place : Nat} {object : List UInt8} (mem : (place, object) ∈ placed 8 stack.cur objects) :
    stackBytes phys stack'.memory place object.length = object := by
  apply ext_getElem
  · simp [stackBytes]
  · intro k _ short
    simp only [stackBytes, getElem_map, getElem_range]
    exact pushes.held place object mem k short

theorem lowest_words {cur : Nat} (aligned : 8 ∣ cur) (values : List Nat) (fits : 8 * values.length ≤ cur) :
    lowest 8 cur (values.map wordBytes) = cur - 8 * values.length := by
  induction values generalizing cur with
  | nil => rfl
  | cons value values ih =>
    rw [length_cons] at fits ⊢
    have step := @lowered_eq _ _ 8 (by decide) aligned (by omega)
    rw [show taken 8 8 = 8 by decide] at step
    rw [map_cons, lowest, length_wordBytes, ih (lowered_dvd ..) (by omega)]
    omega

theorem pushPointers_cur (frames : StackFrames phys) {stack : ExecStack} (ready : stack.Ready) {values : List Nat}
    (fits : stackBase + 8 * values.length ≤ stack.cur) :
    (pushPointers phys values stack).cur = stack.cur - 8 * values.length := by
  have runs := pushPointers_runs frames ready values
  have lowest_ := lowest_words ready.aligned values.reverse (by rw [length_reverse]; omega)
  rw [Runs, lowest_, length_reverse, if_pos (by omega)] at runs
  rw [runs.cur, lowest_, length_reverse]

theorem placed_words {cur : Nat} (aligned : 8 ∣ cur) (values : List Nat) (fits : 8 * values.length ≤ cur) {i : Nat}
    (inside : i < values.length) : (cur - 8 * (i + 1), wordBytes values[i]) ∈ placed 8 cur (values.map wordBytes) := by
  induction values generalizing cur i with
  | nil => exact absurd inside (Nat.not_lt_zero i)
  | cons value values ih =>
    rw [length_cons] at fits inside
    have step := @lowered_eq _ _ 8 (by decide) aligned (by omega)
    rw [show taken 8 8 = 8 by decide] at step
    rw [map_cons, placed, length_wordBytes]
    cases i with
    | zero =>
      rw [show cur - 8 * (0 + 1) = lowered 8 cur 8 by omega]
      exact .head _
    | succ i =>
      have later := ih (lowered_dvd 8 cur 8) (by omega) (Nat.lt_of_succ_lt_succ inside)
      rw [show lowered 8 cur 8 - 8 * (i + 1) = cur - 8 * (i + 1 + 1) by omega] at later
      exact .tail _ later

theorem placed_reverse {cur : Nat} (hal : 8 ∣ cur) (values : List Nat) (fits : 8 * values.length ≤ cur) {i value : Nat}
    (h : values[i]? = some value) :
    (cur - 8 * values.length + 8 * i, wordBytes value) ∈ placed 8 cur (values.reverse.map wordBytes) := by
  obtain ⟨hin, rfl⟩ := List.getElem?_eq_some_iff.mp h
  have index : values.length - 1 - i < values.reverse.length := by
    rw [length_reverse]
    omega
  have mem := placed_words hal values.reverse (by rw [length_reverse]; exact fits) index
  rw [show cur - 8 * (values.length - 1 - i + 1) = cur - 8 * values.length + 8 * i by omega] at mem
  have eq : values.reverse[values.length - 1 - i] = values[i] := by
    rw [getElem_reverse]
    congr 1
    omega
  rwa [eq] at mem

end

end RosKernel.Process
