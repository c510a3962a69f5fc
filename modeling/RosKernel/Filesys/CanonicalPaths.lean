import RosKernel.Library.Joined
import RosKernel.Filesys.Paths

/-! What `CanonicalizePath` should make of a path, and when it does.

A path in normal form is its components, each behind a slash. The buffers of the code hold 255 bytes
and 32 components.
-/

set_option autoImplicit false

namespace RosKernel.Filesys

open Library List

/-- A name between two slashes that stands for itself. -/
structure Component (part : Path) : Prop where
  nonempty : part ≠ []
  whole : slash ∉ part
  here : part ≠ [dot]
  up : part ≠ [dot, dot]

/-- A path in normal form. -/
def Canonical (path : Path) : Prop := ∃ parts, (∀ part ∈ parts, Component part) ∧ path = rebuild parts

/-- The components kept so far, and one more. -/
def keep (kept : List Path) (part : Path) : List Path :=
  if part = [] ∨ part = [dot] then kept
  else if part = [dot, dot] then kept.dropLast
  else kept ++ [part]

/-- What is left of components when each `..` has cancelled the one before it. -/
def settled (parts : List Path) : List Path := parts.foldl keep []

/-- The components of an input, behind those of the working directory when it is relative. -/
def partsOf (cwd input : Path) : List Path :=
  if input.head? = some slash then input.splitOn slash else cwd.splitOn slash ++ input.splitOn slash

def normalForm (cwd input : Path) : Path := rebuild (settled (partsOf cwd input))

section

variable {kept parts : List Path} {part : Path}

theorem keep_nil (kept : List Path) : keep kept [] = kept := if_pos (.inl rfl)

theorem keep_component (component : Component part) : keep kept part = kept ++ [part] := by
  unfold keep
  rw [if_neg (not_or.mpr ⟨component.nonempty, component.here⟩), if_neg component.up]

theorem foldl_keep_components (components : ∀ part ∈ parts, Component part) : parts.foldl keep kept = kept ++ parts := by
  induction parts generalizing kept with
  | nil => exact (append_nil kept).symm
  | cons part parts ih =>
    obtain ⟨h, others⟩ := forall_mem_cons.mp components
    rw [foldl_cons, keep_component h, ih others, append_assoc]
    rfl

theorem settled_components (components : ∀ part ∈ parts, Component part) : settled parts = parts :=
  foldl_keep_components components

theorem keep_are_components (components : ∀ part ∈ kept, Component part) (whole : slash ∉ part) :
    ∀ other ∈ keep kept part, Component other := by
  unfold keep
  split
  case isTrue => exact components
  case isFalse plain =>
  split
  case isTrue => exact fun other mem => components other ((dropLast_subset kept) mem)
  case isFalse up =>
    rw [not_or] at plain
    intro other mem
    rcases mem_append.mp mem with pre | last
    · exact components other pre
    · rw [mem_singleton.mp last]
      exact ⟨plain.1, whole, plain.2, up⟩

theorem settled_are_components (whole : ∀ part ∈ parts, slash ∉ part) : ∀ part ∈ settled parts, Component part := by
  have all : ∀ (parts kept : List Path), (∀ part ∈ parts, slash ∉ part) → (∀ part ∈ kept, Component part) →
      ∀ part ∈ parts.foldl keep kept, Component part := by
    intro parts
    induction parts with
    | nil => exact fun kept _ components => components
    | cons part parts ih =>
      intro kept whole components
      obtain ⟨h, others⟩ := forall_mem_cons.mp whole
      exact ih _ others (keep_are_components components h)
  exact all parts [] whole fun part none => nomatch none

theorem length_joined_settled (parts : List Path) : (joined slash (settled parts)).length ≤ (joined slash parts).length := by
  have all : ∀ (parts kept : List Path), (joined slash (parts.foldl keep kept)).length ≤
      (joined slash kept).length + (joined slash parts).length := by
    intro parts
    induction parts with
    | nil => exact fun kept => Nat.le_add_right ..
    | cons part parts ih =>
      intro kept
      have step : (joined slash (keep kept part)).length ≤ (joined slash kept).length + (joined slash [part]).length := by
        unfold keep
        split
        · exact Nat.le_add_right ..
        split
        · -- cancelling shortens the text
          have front : joined slash kept.dropLast <+: joined slash kept := by
            obtain ⟨last, whole⟩ := dropLast_prefix kept
            exact ⟨joined slash last, by rw [← joined_append, whole]⟩
          exact front.length_le.trans (Nat.le_add_right ..)
        · rw [joined_append, length_append]
      have split : (joined slash (part :: parts)).length = (joined slash [part]).length + (joined slash parts).length := by
        rw [← length_append, ← joined_append]
        rfl
      rw [foldl_cons, split]
      have later := ih (keep kept part)
      omega
  exact (all parts []).trans_eq (Nat.zero_add _)

theorem pushToken_eq (lt : kept.length ≤ maxTokens) :
    pushToken kept.reverse part = if (keep kept part).length ≤ maxTokens then some (keep kept part).reverse else none := by
  unfold pushToken keep
  by_cases plain : part = [] ∨ part = [dot]
  · rw [if_pos plain, if_pos plain, if_pos lt]
  rw [if_neg plain, if_neg plain]
  by_cases up : part = [dot, dot]
  · have shorter : kept.dropLast.length ≤ maxTokens := by
      rw [length_dropLast]
      omega
    rw [if_pos up, if_pos up, if_pos shorter, tail_reverse]
  · grind

theorem foldlM_pushToken {res : List Path} (lt : kept.length ≤ maxTokens) :
    parts.foldlM pushToken kept.reverse = some res ↔
      res = (parts.foldl keep kept).reverse ∧ ∀ front, front <+: parts → (front.foldl keep kept).length ≤ maxTokens := by
  induction parts generalizing kept with
  | nil =>
    constructor
    · grind
    · exact fun both => congrArg some both.1.symm
  | cons part parts ih =>
    rw [foldlM_cons, pushToken_eq lt]
    by_cases fits : (keep kept part).length ≤ maxTokens
    · rw [if_pos fits]
      refine (ih fits).trans (and_congr_right fun _ => ?_)
      constructor
      · intro each front short
        rcases front with _ | ⟨first, front⟩
        · exact lt
        · grind
      · intro each front short
        exact each (part :: front) (cons_prefix_cons.mpr ⟨rfl, short⟩)
    · rw [if_neg fits]
      refine iff_of_false (fun none => nomatch none) fun both => fits ?_
      exact both.2 [part] ⟨parts, rfl⟩

end

section

variable {cwd input path : Path} {parts : List Path}

theorem splitOn_whole (path : Path) : ∀ part ∈ path.splitOn slash, slash ∉ part := by
  induction path with
  | nil =>
    intro part mem
    rw [splitOn_nil, mem_singleton] at mem
    rw [mem]
    exact not_mem_nil
  | cons byte path ih =>
    intro part mem
    rw [splitOn_cons_eq_if_modifyHead] at mem
    split at mem
    case isTrue =>
      rcases mem_cons.mp mem with rfl | later
      · exact not_mem_nil
      · exact ih part later
    case isFalse other =>
      obtain ⟨first, rest, split⟩ := exists_cons_of_ne_nil (splitOn_ne_nil slash path)
      rw [split] at mem ih
      rcases mem_cons.mp mem with rfl | later
      · intro hin
        rcases mem_cons.mp hin with eq | deeper
        · exact other (beq_iff_eq.mpr eq.symm)
        · exact ih first mem_cons_self deeper
      · exact ih part (mem_cons_of_mem _ later)

theorem settled_splitOn_rebuild (components : ∀ part ∈ parts, Component part) : settled ((rebuild parts).splitOn slash) = parts := by
  by_cases none : parts = []
  · subst none
    rfl
  · have text : rebuild parts = joined slash parts := if_neg none
    rw [text, splitOn_joined fun part mem => (components part mem).whole]
    exact settled_components components

theorem joinCwd_absolute (absolute : cwd.head? = some slash) : (joinCwd cwd input).head? = some slash := by
  unfold joinCwd
  split
  case isTrue given => exact given
  case isFalse =>
  split
  · rw [head?_append, absolute, Option.some_or]
  · rw [head?_append, absolute, Option.some_or]

theorem settled_append_nil (parts more : List Path) : settled (parts ++ [] :: more) = settled (parts ++ more) := by
  unfold settled
  rw [foldl_append, foldl_append, foldl_cons, keep_nil]

theorem foldl_joinCwd (cwd input : Path) : settled ((joinCwd cwd input).splitOn slash) = settled (partsOf cwd input) := by
  unfold joinCwd partsOf
  by_cases absolute : input.head? = some slash
  · rw [if_pos absolute, if_pos absolute]
  rw [if_neg absolute, if_neg absolute]
  by_cases ne : cwd ≠ [] ∧ cwd.getLast? ≠ some slash
  · rw [if_pos ne, splitOn_append_cons_self]
  · rw [if_neg ne]
    rcases Classical.em (cwd = []) with rfl | given
    · exact (settled_append_nil [] _).symm
    · -- the working dir ends with a slash
      have last : cwd.getLast? = some slash := by
        by_contra other
        exact ne ⟨given, other⟩
      obtain ⟨front, rfl⟩ := getLast?_eq_some_iff.mp last
      rw [append_assoc, singleton_append, splitOn_append_cons_self, splitOn_append_cons_self, splitOn_nil,
        append_assoc, singleton_append, settled_append_nil]

/-- The names of a path. -/
def components (path : Path) : List Path := (path.splitOn slash).filter (· ≠ [])

theorem components_rebuild (names : ∀ part ∈ parts, Component part) : components (rebuild parts) = parts := by
  unfold components
  by_cases none : parts = []
  · subst none
    rfl
  · have text : rebuild parts = joined slash parts := if_neg none
    rw [text, splitOn_joined fun part mem => (names part mem).whole, filter_cons_of_neg (by simp)]
    exact filter_eq_self.mpr fun part mem => decide_eq_true (names part mem).nonempty

theorem length_settled_le (parts : List Path) : (settled parts).length ≤ (parts.filter (· ≠ [])).length := by
  have all : ∀ (parts kept : List Path), (parts.foldl keep kept).length ≤ kept.length + (parts.filter (· ≠ [])).length := by
    intro parts
    induction parts with
    | nil => exact fun kept => Nat.le_add_right ..
    | cons part parts ih =>
      intro kept
      have later := ih (keep kept part)
      rw [foldl_cons]
      by_cases empty : part = []
      · subst empty
        rw [filter_cons_of_neg (by simp)]
        exact later
      · have step : (keep kept part).length ≤ kept.length + 1 := by
          unfold keep
          split
          · exact Nat.le_succ _
          split
          · grind
          · rw [length_append, length_singleton]
        rw [filter_cons_of_pos (by simp [empty]), length_cons]
        omega
  exact (all parts []).trans_eq (Nat.zero_add _)

section

variable (absolute : cwd.head? = some slash)
include absolute

theorem length_normalForm_le : (normalForm cwd input).length ≤ (joinCwd cwd input).length := by
  obtain ⟨rest, text⟩ := head?_eq_some_iff.mp (@joinCwd_absolute cwd input absolute)
  have behind : settled (partsOf cwd input) = settled (rest.splitOn slash) := by
    rw [← foldl_joinCwd, text, ← nil_append (slash :: rest), splitOn_append_cons_self, splitOn_nil]
    exact settled_append_nil [] _
  have tight := length_joined_settled (rest.splitOn slash)
  rw [joined_splitOn, ← text, ← behind] at tight
  unfold normalForm rebuild
  split
  · rw [text]
    exact Nat.succ_le_succ (Nat.zero_le _)
  · exact tight

theorem canonicalizePath_some {output : Path} : canonicalizePath cwd input = some output ↔
    (output = normalForm cwd input ∧ (joinCwd cwd input).length < pathSize) ∧
      ∀ front, front <+: (joinCwd cwd input).splitOn slash → (settled front).length ≤ maxTokens := by
  have stack : ∀ kept, ((joinCwd cwd input).splitOn slash).foldlM pushToken [] = some kept ↔
      kept = (settled ((joinCwd cwd input).splitOn slash)).reverse ∧
        ∀ front, front <+: (joinCwd cwd input).splitOn slash → (settled front).length ≤ maxTokens :=
    fun _ => @foldlM_pushToken [] _ _ (Nat.zero_le _)
  unfold canonicalizePath
  by_cases long : pathSize ≤ (joinCwd cwd input).length
  · grind
  rw [if_neg long, and_iff_left (Nat.not_le.mp long)]
  cases pushed : ((joinCwd cwd input).splitOn slash).foldlM pushToken [] with
  | none =>
    refine iff_of_false (fun none => nomatch none) fun all => ?_
    exact nomatch pushed.symm.trans ((stack _).mpr ⟨rfl, all.2⟩)
  | some kept =>
    obtain ⟨whole, each⟩ := (stack kept).mp pushed
    have settles : rebuild kept.reverse = normalForm cwd input := by
      rw [whole, reverse_reverse, foldl_joinCwd]
      rfl
    have fits : ¬pathSize ≤ (normalForm cwd input).length := fun ending => long (ending.trans (length_normalForm_le absolute))
    dsimp only
    rw [settles, if_neg fits, and_iff_left each, Option.some_inj]
    exact eq_comm

theorem canonicalizePath_again {output : Path} (made : canonicalizePath cwd input = some output) {other : Path}
    (there : other.head? = some slash) : Canonical output ∧ canonicalizePath other output = some output := by
  obtain ⟨⟨whole, short⟩, stack⟩ := (canonicalizePath_some absolute).mp made
  have names : ∀ part ∈ settled (partsOf cwd input), Component part := by
    rw [← foldl_joinCwd]
    exact settled_are_components (splitOn_whole _)
  have head : output.head? = some slash := canonicalizePath_head made
  have text : joinCwd other output = output := if_pos head
  have parts : partsOf other output = output.splitOn slash := if_pos head
  refine ⟨⟨_, names, whole⟩, (canonicalizePath_some there).mpr ⟨⟨?_, ?_⟩, ?_⟩⟩
  · unfold normalForm
    rw [parts, whole]
    exact congrArg rebuild (settled_splitOn_rebuild names).symm
  · rw [text, whole]
    exact (length_normalForm_le absolute).trans_lt short
  · intro front hin
    have count : (settled (partsOf cwd input)).length ≤ maxTokens := by
      rw [← foldl_joinCwd]
      exact stack _ (prefix_refl _)
    have named : (output.splitOn slash).filter (· ≠ []) = settled (partsOf cwd input) := by
      rw [whole]
      exact components_rebuild names
    rw [text] at hin
    have fewer := (hin.filter (· ≠ [])).length_le
    rw [named] at fewer
    exact (length_settled_le front).trans (fewer.trans count)

end

/-- `CanonicalizePath` stays in its buffers and gives the normal form exactly when the joined text has at
most 255 bytes and no beginning of it settles to more than 32 components. -/
theorem canonicalizePath_iff (absolute : cwd.head? = some slash) :
    (∃ output, canonicalizePath cwd input = some output ∧ output = normalForm cwd input ∧ Canonical output ∧
      ∀ other, other.head? = some slash → canonicalizePath other output = some output) ↔
    (joinCwd cwd input).length ≤ 255 ∧ ∀ front, front <+: (joinCwd cwd input).splitOn slash → (settled front).length ≤ 32 := by
  constructor
  · rintro ⟨output, made, _⟩
    obtain ⟨⟨_, short⟩, stack⟩ := (canonicalizePath_some absolute).mp made
    exact ⟨Nat.le_of_lt_succ short, stack⟩
  · rintro ⟨short, stack⟩
    have made := (canonicalizePath_some absolute).mpr ⟨⟨rfl, Nat.lt_succ_of_le short⟩, stack⟩
    refine ⟨_, made, rfl, (canonicalizePath_again absolute made absolute).1, fun other there => ?_⟩
    exact (canonicalizePath_again absolute made there).2

/-- From `/home`, the text `../etc//./x` leads to `/etc/x`. -/
theorem canonicalizePath_dots : canonicalizePath [47, 104, 111, 109, 101] [46, 46, 47, 101, 116, 99, 47, 47, 46, 47, 120] =
    some [47, 101, 116, 99, 47, 120] := by
  have few : ((joinCwd [47, 104, 111, 109, 101] [46, 46, 47, 101, 116, 99, 47, 47, 46, 47, 120]).splitOn slash).length ≤ 32 := by decide
  obtain ⟨output, made, whole, _⟩ := (@canonicalizePath_iff [47, 104, 111, 109, 101]
    [46, 46, 47, 101, 116, 99, 47, 47, 46, 47, 120] (by decide)).mpr ⟨by decide, fun front hin =>
      (length_settled_le front).trans ((length_filter_le ..).trans (hin.length_le.trans few))⟩
  rw [made, whole]
  decide

/-- A working directory of 255 bytes leaves no room for a relative name, and a path of 33 names none on the stack. -/
theorem canonicalizePath_overflows :
    canonicalizePath (slash :: replicate 254 97) [97] = none ∧
      canonicalizePath [slash] (replicate 33 [slash, 97]).flatten = none := by decide +kernel

end

end RosKernel.Filesys
