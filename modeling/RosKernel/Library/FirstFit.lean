import Mathlib.Tactic.Common

/-! First-fit search for a run of free positions with one running counter.

The scan visits positions in order, counts the free positions that end at the
current one, restarts the count at a used position, and stops at the first
position where the count reaches the request.
-/

set_option autoImplicit false

namespace RosKernel.Library

/-- `scan free count left i run`: `left` positions remain, `i` is next and `run`
free positions end just before it. The answer is the first position of the run. -/
def scan (free : Nat → Bool) (count : Nat) : Nat → Nat → Nat → Option Nat
  | 0, _, _ => none
  | left + 1, i, run =>
    if free i then
      if run + 1 = count then some (i + 1 - count) else scan free count left (i + 1) (run + 1)
    else scan free count left (i + 1) 0

def IsRun (free : Nat → Bool) (start count : Nat) : Prop :=
  ∀ i, i < count → free (start + i) = true

/-- What the counter means: the run just before `i` is free and shorter than the
request, and no request fits that starts before it. -/
structure Scanned (free : Nat → Bool) (count i run : Nat) : Prop where
  fits : run ≤ i
  short : run < count
  counted : IsRun free (i - run) run
  blocked : ∀ start, start < i - run → ¬ IsRun free start count

variable {free : Nat → Bool} {count i run : Nat}

theorem Scanned.initial (positive : 0 < count) : Scanned free count 0 0 where
  fits := Nat.le_refl 0
  short := positive
  counted := fun _ small => absurd small (Nat.not_lt_zero _)
  blocked := fun _ small => absurd small (Nat.not_lt_zero _)

section

variable (scanned : Scanned free count i run)
include scanned

theorem Scanned.extend (open_ : free i = true) (more : run + 1 ≠ count) : Scanned free count (i + 1) (run + 1) where
  fits := Nat.succ_le_succ scanned.fits
  short := Nat.lt_of_le_of_ne scanned.short more
  counted := by
    intro j small
    rw [show i + 1 - (run + 1) = i - run by omega]
    by_cases last : j = run
    · rw [last, show i - run + run = i by have := scanned.fits; omega]
      exact open_
    · exact scanned.counted j (by omega)
  blocked := by
    rw [show i + 1 - (run + 1) = i - run by omega]
    exact scanned.blocked

theorem Scanned.restart (used : free i = false) : Scanned free count (i + 1) 0 where
  fits := Nat.zero_le _
  short := Nat.lt_of_le_of_lt (Nat.zero_le run) scanned.short
  counted := fun _ small => absurd small (Nat.not_lt_zero _)
  blocked := by
    intro start before isRun
    by_cases early : start < i - run
    · exact scanned.blocked start early isRun
    · -- the run is shorter than the request, so a request starting inside it meets `i`
      have inside : i - start < count := by have := scanned.short; omega
      have atUsed := isRun (i - start) inside
      rw [show start + (i - start) = i by omega, used] at atUsed
      exact absurd atUsed (by decide)

theorem Scanned.complete (open_ : free i = true) (full : run + 1 = count) : IsRun free (i + 1 - count) count := by
  intro j lt
  by_cases last : j = run
  · rw [last, show i + 1 - count + run = i by have := scanned.fits; omega]
    exact open_
  · rw [show i + 1 - count = i - run by omega]
    exact scanned.counted j (by omega)

theorem scan_some {left start : Nat} (hf : scan free count left i run = some start) :
    IsRun free start count ∧ start + count ≤ i + left ∧
      ∀ earlier, earlier < start → ¬ IsRun free earlier count := by
  induction left generalizing i run with
  | zero => simp [scan] at hf
  | succ left ih =>
    simp only [scan] at hf
    split at hf
    next open_ =>
      split at hf
      next full =>
        have eq : i + 1 - count = start := Option.some.inj hf
        have fits := scanned.fits
        subst eq
        refine ⟨scanned.complete open_ full, by omega, fun earlier pre => ?_⟩
        exact scanned.blocked earlier (by omega)
      next more =>
        obtain ⟨isRun, bound, least⟩ := ih (scanned.extend open_ more) hf
        exact ⟨isRun, by omega, least⟩
    next used =>
      obtain ⟨isRun, bound, least⟩ := ih (scanned.restart (by simpa using used)) hf
      exact ⟨isRun, by omega, least⟩

theorem scan_none {left : Nat} (miss : scan free count left i run = none) :
    ∀ start, start + count ≤ i + left → ¬ IsRun free start count := by
  induction left generalizing i run with
  | zero =>
    intro start bound
    have short := scanned.short
    exact scanned.blocked start (by omega)
  | succ left ih =>
    intro start bound
    simp only [scan] at miss
    split at miss
    next open_ =>
      split at miss
      next => exact absurd miss (by simp)
      next more => exact ih (scanned.extend open_ more) miss start (by omega)
    next used => exact ih (scanned.restart (by simpa using used)) miss start (by omega)

end

theorem scan_eq_some_iff {limit start : Nat} (pos : 0 < count) :
    scan free count limit 0 0 = some start ↔
      IsRun free start count ∧ start + count ≤ limit ∧
        ∀ earlier, earlier < start → ¬ IsRun free earlier count := by
  constructor
  · intro hf
    simpa using scan_some (Scanned.initial pos) hf
  · rintro ⟨isRun, bound, least⟩
    cases hf : scan free count limit 0 0 with
    | none => exact absurd isRun (scan_none (Scanned.initial pos) hf start (by omega))
    | some other =>
      obtain ⟨otherRun, _, otherLeast⟩ := scan_some (Scanned.initial pos) hf
      rcases Nat.lt_trichotomy other start with pre | eq | after
      · exact absurd otherRun (least other pre)
      · rw [eq]
      · exact absurd isRun (otherLeast start after)

theorem scan_eq_none_iff {limit : Nat} (pos : 0 < count) :
    scan free count limit 0 0 = none ↔ ∀ start, start + count ≤ limit → ¬ IsRun free start count := by
  constructor
  · intro miss start bound
    exact scan_none (Scanned.initial pos) miss start (by omega)
  · intro none_
    cases hf : scan free count limit 0 0 with
    | none => rfl
    | some start =>
      obtain ⟨isRun, bound, _⟩ := scan_some (Scanned.initial pos) hf
      exact absurd isRun (none_ start (by omega))

end RosKernel.Library
