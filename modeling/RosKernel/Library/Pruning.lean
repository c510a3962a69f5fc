import Mathlib.Algebra.BigOperators.Group.List.Basic
import Mathlib.Data.List.Nodup

/-! Dropping leaves of a labelled tree, and the nodes that have nothing left below them.

A path is kept with its last slot first, a label of zero says that there is no node, and all leaves
below a node lie at one level.
-/

set_option autoImplicit false

namespace RosKernel.Library

open List

variable {α : Type} [Zero α] [DecidableEq α]

section

variable (label : List Nat → α) (drops : List Nat → Bool) (entries : Nat)

/-- A leaf is kept unless it is dropped, a node above while something below it is kept. -/
def kept : Nat → List Nat → Bool
  | 0, path => decide (label path ≠ 0) && !drops path
  | level + 1, path => decide (label path ≠ 0) && (range entries).any fun slot => kept level (slot :: path)

/-- The label that a node keeps. -/
def pruned (level : Nat) (path : List Nat) : α := if kept label drops entries level path then label path else 0

/-- The nodes that go, each after those below it. -/
def released : Nat → List Nat → List (List Nat)
  | 0, path => if decide (label path ≠ 0) && drops path then [path] else []
  | level + 1, path =>
    if label path = 0 then []
    else ((range entries).flatMap fun slot => released level (slot :: path)) ++
      if kept label drops entries (level + 1) path then [] else [path]

def present : Nat → List Nat → List (List Nat)
  | 0, path => if label path = 0 then [] else [path]
  | level + 1, path =>
    if label path = 0 then [] else ((range entries).flatMap fun slot => present level (slot :: path)) ++ [path]

/-- The node lies at most `level` levels below the path. -/
def Under (level : Nat) (path node : List Nat) : Prop :=
  ∃ slots, node = slots ++ path ∧ slots.length ≤ level ∧ ∀ slot ∈ slots, slot < entries

end

section

variable {entries level : Nat} {path node : List Nat}

theorem Under.refl (level : Nat) (path : List Nat) : Under entries level path path :=
  ⟨[], rfl, Nat.zero_le _, fun _ mem => nomatch mem⟩

theorem Under.suffix (under : Under entries level path node) : path <:+ node := by
  obtain ⟨slots, rfl, _⟩ := under
  exact suffix_append slots path

theorem under_zero : Under entries 0 path node ↔ node = path := by
  constructor
  · rintro ⟨slots, rfl, short, _⟩
    rw [length_eq_zero_iff.mp (Nat.le_zero.mp short), nil_append]
  · rintro rfl
    exact .refl 0 node

theorem under_succ : Under entries (level + 1) path node ↔
    node = path ∨ ∃ slot < entries, Under entries level (slot :: path) node := by
  constructor
  · rintro ⟨slots, rfl, short, lt⟩
    rcases eq_nil_or_concat slots with none | ⟨front, slot, split⟩
    · exact .inl (by rw [none, nil_append])
    · rw [concat_eq_append] at split
      subst split
      rw [length_append, length_singleton] at short
      refine .inr ⟨slot, lt slot (mem_append_right _ (.head _)), front, ?_, by omega,
        fun other mem => lt other (mem_append_left _ mem)⟩
      rw [append_assoc, singleton_append]
  · rintro (rfl | ⟨slot, hin, slots, rfl, short, lt⟩)
    · exact .refl _ node
    · refine ⟨slots ++ [slot], by rw [append_assoc, singleton_append], ?_, ?_⟩
      · rw [length_append, length_singleton]
        omega
      · intro other mem
        rcases mem_append.mp mem with front | last
        · exact lt other front
        · exact mem_singleton.mp last ▸ hin

theorem Under.slot_eq {level' slot slot' : Nat} (under : Under entries level (slot :: path) node)
    (other : Under entries level' (slot' :: path) node) : slot = slot' := by
  have eq := suffix_or_suffix_of_suffix under.suffix other.suffix
  rcases eq with first | snd
  · exact (cons.inj (first.eq_of_length (by rw [length_cons, length_cons]))).1
  · exact (cons.inj (snd.eq_of_length (by rw [length_cons, length_cons]))).1.symm

end

section

variable {label : List Nat → α} {drops : List Nat → Bool} {entries level : Nat} {path node : List Nat}

theorem kept_zero : kept label drops entries 0 path = true ↔ label path ≠ 0 ∧ drops path = false := by
  simp [kept]

theorem kept_succ : kept label drops entries (level + 1) path = true ↔
    label path ≠ 0 ∧ ∃ slot < entries, kept label drops entries level (slot :: path) = true := by
  simp [kept]

theorem kept_label (keeps : kept label drops entries level path = true) : label path ≠ 0 := by
  cases level with
  | zero => exact (kept_zero.mp keeps).1
  | succ level => exact (kept_succ.mp keeps).1

theorem pruned_kept (keeps : kept label drops entries level path = true) : pruned label drops entries level path = label path :=
  if_pos keeps

theorem pruned_eq_zero : pruned label drops entries level path = 0 ↔ kept label drops entries level path = false := by
  unfold pruned
  split
  case isTrue keeps => exact iff_of_false (kept_label keeps) (by rw [keeps]; decide)
  case isFalse goes => exact iff_of_true rfl (eq_false_of_ne_true goes)

variable {height : List Nat → Nat} (falls : ∀ slot path, path ≠ [] → height (slot :: path) = height path - 1)
  (closed : ∀ slot path, path ≠ [] → label path = 0 → label (slot :: path) = 0)

omit [DecidableEq α] in
include closed in
theorem Under.label_ne_zero (under : Under entries level path node) (below : path ≠ []) (there : label node ≠ 0) :
    label path ≠ 0 := by
  obtain ⟨slots, rfl, -⟩ := under
  intro zero
  apply there
  clear there
  induction slots with
  | nil => exact zero
  | cons slot slots ih => exact closed slot _ (append_ne_nil_of_right_ne_nil slots below) ih

include falls in
theorem height_child {slot : Nat} (atLevel : height path = level + 1) (below : path ≠ []) : height (slot :: path) = level := by
  rw [falls slot path below, atLevel, Nat.add_sub_cancel]

section

variable (atLevel : height path = level) (below : path ≠ [])

include falls closed atLevel below

theorem kept_iff : kept label drops entries level path = true ↔
    ∃ leaf, Under entries level path leaf ∧ height leaf = 0 ∧ label leaf ≠ 0 ∧ drops leaf = false := by
  induction level generalizing path with
  | zero =>
    rw [kept_zero]
    constructor
    · exact fun ⟨there, stays⟩ => ⟨path, .refl 0 path, atLevel, there, stays⟩
    · rintro ⟨leaf, under, _, there, stays⟩
      rw [under_zero.mp under] at there stays
      exact ⟨there, stays⟩
  | succ level ih =>
    have child : ∀ slot, kept label drops entries level (slot :: path) = true ↔ _ := fun slot =>
      ih (height_child falls atLevel below) (cons_ne_nil slot path)
    rw [kept_succ]
    constructor
    · rintro ⟨_, slot, hin, keeps⟩
      obtain ⟨leaf, under, rest⟩ := (child slot).mp keeps
      exact ⟨leaf, under_succ.mpr (.inr ⟨slot, hin, under⟩), rest⟩
    · rintro ⟨leaf, under, low, there, stays⟩
      rcases under_succ.mp under with eq | ⟨slot, hin, further⟩
      · rw [eq, atLevel] at low
        exact nomatch low
      · exact ⟨under.label_ne_zero closed below there, slot, hin, (child slot).mpr ⟨leaf, further, low, there, stays⟩⟩

theorem mem_released : node ∈ released label drops entries level path ↔
    Under entries level path node ∧ label node ≠ 0 ∧ kept label drops entries (height node) node = false := by
  induction level generalizing path with
  | zero =>
    have h : node ∈ released label drops entries 0 path ↔ node = path ∧ label path ≠ 0 ∧ drops path = true := by
      unfold released
      split
      case isTrue goes =>
        rw [Bool.and_eq_true, decide_eq_true_eq] at goes
        rw [mem_singleton]
        exact ⟨fun eq => ⟨eq, goes⟩, fun both => both.1⟩
      case isFalse stays =>
        rw [Bool.and_eq_true, decide_eq_true_eq] at stays
        exact iff_of_false not_mem_nil fun both => stays both.2
    rw [h, under_zero]
    constructor
    · rintro ⟨rfl, there, goes⟩
      refine ⟨rfl, there, ?_⟩
      rw [atLevel, ← Bool.not_eq_true, kept_zero, goes]
      exact fun both => nomatch both.2
    · rintro ⟨rfl, there, goes⟩
      rw [atLevel, ← Bool.not_eq_true, kept_zero] at goes
      exact ⟨rfl, there, eq_true_of_ne_false fun stays => goes ⟨there, stays⟩⟩
  | succ level ih =>
    have child : ∀ slot, node ∈ released label drops entries level (slot :: path) ↔ _ := fun slot =>
      ih (height_child falls atLevel below) (cons_ne_nil slot path)
    unfold released
    split
    case isTrue miss =>
      exact iff_of_false not_mem_nil fun both => both.1.label_ne_zero closed below both.2.1 miss
    case isFalse there =>
      have last : node ∈ (if kept label drops entries (level + 1) path then [] else [path]) ↔
          node = path ∧ kept label drops entries (level + 1) path = false := by
        split
        case isTrue keeps => exact iff_of_false not_mem_nil fun both => nomatch keeps.symm.trans both.2
        case isFalse goes =>
          rw [mem_singleton]
          exact ⟨fun eq => ⟨eq, eq_false_of_ne_true goes⟩, fun both => both.1⟩
      rw [mem_append, mem_flatMap, last, under_succ]
      constructor
      · rintro (⟨slot, hin, mem⟩ | ⟨rfl, goes⟩)
        · grind
        · exact ⟨.inl rfl, there, atLevel ▸ goes⟩
      · rintro ⟨rfl | ⟨slot, hin, under⟩, labelled, goes⟩
        · exact .inr ⟨rfl, atLevel ▸ goes⟩
        · grind

end

theorem released_nodup (level : Nat) (path : List Nat) (falls : ∀ slot path, path ≠ [] → height (slot :: path) = height path - 1)
    (closed : ∀ slot path, path ≠ [] → label path = 0 → label (slot :: path) = 0)
    (atLevel : height path = level) (below : path ≠ []) : (released label drops entries level path).Nodup := by
  induction level generalizing path with
  | zero =>
    unfold released
    split
    · exact nodup_singleton path
    · exact .nil
  | succ level ih =>
    have under : ∀ {slot node}, node ∈ released label drops entries level (slot :: path) →
        Under entries level (slot :: path) node := fun mem =>
      ((mem_released falls closed (height_child falls atLevel below) (cons_ne_nil _ path)).mp mem).1
    unfold released
    split
    · exact .nil
    rw [nodup_append, nodup_flatMap]
    refine ⟨⟨fun slot _ => ih _ (height_child falls atLevel below) (cons_ne_nil slot path), ?_⟩, ?_, ?_⟩
    · apply nodup_range.imp
      intro slot slot' ne node first snd
      exact ne ((under first).slot_eq (under snd))
    · split
      · exact .nil
      · exact nodup_singleton path
    · intro node mem other last eq
      obtain ⟨slot, _, deeper⟩ := mem_flatMap.mp mem
      split at last
      · exact nomatch last
      · -- what lies below a node has a longer path
        rw [mem_singleton.mp last] at eq
        have longer := (under deeper).suffix.length_le
        rw [eq, length_cons] at longer
        omega

theorem released_eq_nil (miss : label path = 0) : released label drops entries level path = [] := by
  cases level with
  | zero => simp [released, miss]
  | succ level => exact if_pos miss

theorem present_eq_nil (miss : label path = 0) : present label entries level path = [] := by
  cases level with
  | zero => exact if_pos miss
  | succ level => exact if_pos miss

theorem length_present {label' : List Nat → α} (level : Nat) (path : List Nat)
    (falls : ∀ slot path, path ≠ [] → height (slot :: path) = height path - 1)
    (atLevel : height path = level) (below : path ≠ [])
    (after : ∀ node, Under entries level path node → label' node = pruned label drops entries (height node) node) :
    (present label entries level path).length =
      (present label' entries level path).length + (released label drops entries level path).length := by
  induction level generalizing path with
  | zero =>
    have h := after path (.refl 0 path)
    rw [atLevel] at h
    unfold present released
    rw [h]
    unfold pruned kept
    by_cases there : label path = 0
    · simp [there]
    · by_cases goes : drops path = true <;> simp [there, goes]
  | succ level ih =>
    have h := after path (.refl _ path)
    rw [atLevel] at h
    have deeper : ∀ slot ∈ range entries, (present label entries level (slot :: path)).length =
        (present label' entries level (slot :: path)).length + (released label drops entries level (slot :: path)).length :=
      fun slot hin => ih _ (height_child falls atLevel below) (cons_ne_nil slot path) fun node under =>
        after node (under_succ.mpr (.inr ⟨slot, mem_range.mp hin, under⟩))
    have sums := congrArg List.sum (map_congr_left deeper)
    rw [sum_map_add] at sums
    by_cases there : label path = 0
    · have goes : kept label drops entries (level + 1) path = false := eq_false_of_ne_true fun keeps => kept_label keeps there
      rw [pruned_eq_zero.mpr goes] at h
      rw [present_eq_nil there, present_eq_nil h, released_eq_nil there]
      rfl
    unfold released
    rw [if_neg there, length_append, length_flatMap]
    have whole : (present label entries (level + 1) path).length =
        ((range entries).map fun slot => (present label entries level (slot :: path)).length).sum + 1 := by
      rw [present, if_neg there, length_append, length_flatMap, length_singleton]
    rw [whole, sums]
    cases keeps : kept label drops entries (level + 1) path with
    | true =>
      rw [pruned_kept keeps] at h
      rw [present, if_neg (by rw [h]; exact there), length_append, length_flatMap, length_singleton,
        if_pos rfl, length_nil]
      omega
    | false =>
      rw [pruned_eq_zero.mpr keeps] at h
      rw [present_eq_nil h, if_neg (by decide), length_singleton, length_nil]
      -- nothing below a node that goes is left
      have none : ∀ slot ∈ range entries, (present label' entries level (slot :: path)).length = 0 := by
        intro slot hin
        have childHere := after (slot :: path) (under_succ.mpr (.inr ⟨slot, mem_range.mp hin, .refl level _⟩))
        rw [height_child falls atLevel below] at childHere
        have childGoes : kept label drops entries level (slot :: path) = false := by
          apply eq_false_of_ne_true
          intro childKeeps
          have up := kept_succ.mpr ⟨there, slot, mem_range.mp hin, childKeeps⟩
          exact nomatch keeps.symm.trans up
        rw [present_eq_nil (childHere.trans (pruned_eq_zero.mpr childGoes)), length_nil]
      have zero : ((range entries).map fun slot => (present label' entries level (slot :: path)).length).sum = 0 :=
        sum_eq_zero fun count mem => by
          obtain ⟨slot, hin, eq⟩ := mem_map.mp mem
          rw [← eq, none slot hin]
      omega

end

end RosKernel.Library
