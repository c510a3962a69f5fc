import Mathlib.Data.List.Basic


/-! Ordered lists of half-open spans with a gap between any two.

Such a list is the one canonical description of a set of positions: no two of its
spans touch, so a span that is added must be joined to the neighbours it touches.
-/

set_option autoImplicit false

namespace RosKernel.Library

open List

structure Span where
  start : Nat
  len : Nat
  deriving DecidableEq, Repr

def Span.stop (span : Span) : Nat := span.start + span.len

def Span.Has (span : Span) (pos : Nat) : Prop := span.start ≤ pos ∧ pos < span.stop

structure Separated (spans : List Span) : Prop where
  nonempty : ∀ span ∈ spans, 0 < span.len
  gaps : spans.Pairwise fun left right => left.stop < right.start

def Covered (spans : List Span) (pos : Nat) : Prop := ∃ span ∈ spans, span.Has pos

/-- Put `span` in front of `after`, joined to its first span when they touch. -/
def joinRight (span : Span) : List Span → List Span
  | [] => [span]
  | right :: rest =>
    if span.stop = right.start then ⟨span.start, span.len + right.len⟩ :: rest else span :: right :: rest

/-- Put `span` between `before` and `after`, joined to whichever neighbour it touches. -/
def insertSpan (before : List Span) (span : Span) (after : List Span) : List Span :=
  match before.getLast? with
  | none => joinRight span after
  | some left =>
    if left.stop = span.start then before.dropLast ++ joinRight ⟨left.start, left.len + span.len⟩ after
    else before ++ joinRight span after

/-- Take the first `count` positions of `span`. -/
def dropFront (span : Span) (count : Nat) : List Span :=
  if span.len = count then [] else [⟨span.start + count, span.len - count⟩]

variable {before after spans : List Span} {span : Span}

theorem joinRight_touch {right : Span} (touch : span.stop = right.start) :
    joinRight span (right :: after) = ⟨span.start, span.len + right.len⟩ :: after := if_pos touch

theorem joinRight_apart {right : Span} (ne : span.stop ≠ right.start) :
    joinRight span (right :: after) = span :: right :: after := if_neg ne

theorem joinRight_eq_cons (span : Span) (after : List Span) : ∃ joined rest,
    joinRight span after = joined :: rest ∧ joined.start = span.start ∧ ∀ left : Span, left.stop = span.start →
      joinRight ⟨left.start, left.len + span.len⟩ after = ⟨left.start, left.len + joined.len⟩ :: rest := by
  cases after with
  | nil => exact ⟨span, [], rfl, rfl, fun _ _ => rfl⟩
  | cons right rest =>
    by_cases touch : span.stop = right.start
    · refine ⟨_, rest, joinRight_touch touch, rfl, fun left meets => ?_⟩
      rw [joinRight_touch (by simp only [Span.stop] at touch meets ⊢; omega), Nat.add_assoc]
    · refine ⟨span, _, joinRight_apart touch, rfl, fun left meets => joinRight_apart ?_⟩
      simp only [Span.stop] at touch meets ⊢
      omega

theorem insertSpan_touch {left : Span} (touch : left.stop = span.start) :
    insertSpan (before ++ [left]) span after = before ++ joinRight ⟨left.start, left.len + span.len⟩ after := by
  unfold insertSpan
  rw [getLast?_concat, dropLast_concat]
  exact if_pos touch

theorem insertSpan_apart {left : Span} (ne : left.stop ≠ span.start) :
    insertSpan (before ++ [left]) span after = before ++ [left] ++ joinRight span after := by
  unfold insertSpan
  rw [getLast?_concat]
  exact if_neg ne

theorem separated_append : Separated (before ++ after) ↔
    Separated before ∧ Separated after ∧ ∀ left ∈ before, ∀ right ∈ after, left.stop < right.start := by
  constructor
  · rintro ⟨nonempty, gaps⟩
    rw [pairwise_append] at gaps
    exact ⟨⟨fun span mem => nonempty span (mem_append_left _ mem), gaps.1⟩,
      ⟨fun span mem => nonempty span (mem_append_right _ mem), gaps.2.1⟩, gaps.2.2⟩
  · rintro ⟨first, snd, across⟩
    refine ⟨fun span mem => ?_, pairwise_append.mpr ⟨first.gaps, snd.gaps, across⟩⟩
    rcases mem_append.mp mem with mem | mem
    · exact first.nonempty span mem
    · exact snd.nonempty span mem

theorem separated_cons : Separated (span :: spans) ↔
    0 < span.len ∧ (∀ right ∈ spans, span.stop < right.start) ∧ Separated spans := by
  constructor
  · rintro ⟨nonempty, gaps⟩
    rw [pairwise_cons] at gaps
    exact ⟨nonempty span (.head _), gaps.1,
      ⟨fun other mem => nonempty other (.tail _ mem), gaps.2⟩⟩
  · rintro ⟨pos, first, rest⟩
    refine ⟨fun other mem => ?_, pairwise_cons.mpr ⟨first, rest.gaps⟩⟩
    rcases mem_cons.mp mem with rfl | mem
    · exact pos
    · exact rest.nonempty other mem

theorem separated_nil : Separated [] := ⟨fun _ mem => (nomatch mem), List.Pairwise.nil⟩

theorem covered_append {pos : Nat} : Covered (before ++ after) pos ↔ Covered before pos ∨ Covered after pos := by
  simp only [Covered, mem_append, or_and_right, exists_or]

theorem covered_cons {pos : Nat} : Covered (span :: spans) pos ↔ span.Has pos ∨ Covered spans pos := by
  simp only [Covered, mem_cons, exists_eq_or_imp]

theorem covered_nil {pos : Nat} : ¬ Covered [] pos := by
  rintro ⟨span, mem, _⟩
  exact nomatch mem

theorem Separated.exists_split {α : Type} {f : α → Span} {items : List α} (separated : Separated (items.map f))
    (pos : Nat) : ∃ before after, items = before ++ after ∧ (∀ left ∈ before, (f left).start < pos) ∧
      ∀ right ∈ after, pos ≤ (f right).start := by
  induction items with
  | nil => exact ⟨[], [], rfl, fun _ mem => (nomatch mem), fun _ mem => (nomatch mem)⟩
  | cons item rest ih =>
    obtain ⟨positive, gap, separated⟩ := separated_cons.mp separated
    obtain ⟨before, after, eq, below, above⟩ := ih separated
    by_cases low : (f item).start < pos
    · grind
    · refine ⟨[], item :: rest, rfl, fun _ mem => (nomatch mem),
        forall_mem_cons.mpr ⟨by omega, fun other mem => ?_⟩⟩
      have := gap (f other) (mem_map_of_mem mem)
      simp only [Span.stop] at this
      omega

theorem forall_mem_insertSpan {holds : Span → Prop} (first : ∀ left ∈ before, holds left) (self : holds span)
    (snd : ∀ right ∈ after, holds right)
    (join : ∀ left right : Span, holds left → holds right → holds ⟨left.start, left.len + right.len⟩) :
    ∀ other ∈ insertSpan before span after, holds other := by
  have joined : ∀ span, holds span → ∀ other ∈ joinRight span after, holds other := by
    intro span self
    cases after with
    | nil => exact forall_mem_cons.mpr ⟨self, snd⟩
    | cons right rest =>
      obtain ⟨rightHolds, restHolds⟩ := forall_mem_cons.mp snd
      by_cases touch : span.stop = right.start
      · rw [joinRight_touch touch]
        exact forall_mem_cons.mpr ⟨join span right self rightHolds, restHolds⟩
      · rw [joinRight_apart touch]
        exact forall_mem_cons.mpr ⟨self, snd⟩
  rcases eq_nil_or_concat' before with rfl | ⟨init, left, rfl⟩
  · exact joined span self
  · have initHolds : ∀ other ∈ init, holds other := fun other mem => first other (mem_append_left _ mem)
    have leftHolds := first left (by simp)
    by_cases touch : left.stop = span.start
    · rw [insertSpan_touch touch]
      exact forall_mem_append.mpr ⟨initHolds, joined _ (join left span leftHolds self)⟩
    · rw [insertSpan_apart touch]
      exact forall_mem_append.mpr ⟨first, joined span self⟩

/-- A span outside the covered positions, placed by its start, clears its left
neighbours and does not run into its right ones. -/
theorem Separated.placed (separated : Separated (before ++ after)) (positive : 0 < span.len)
    (out : ∀ pos, span.Has pos → ¬ Covered (before ++ after) pos)
    (below : ∀ left ∈ before, left.start < span.start) (above : ∀ right ∈ after, span.start ≤ right.start) :
    (∀ left ∈ before, left.stop ≤ span.start) ∧ ∀ right ∈ after, span.stop ≤ right.start := by
  constructor
  · intro left mem
    by_contra runs
    refine out span.start ⟨Nat.le_refl _, by simp only [Span.stop]; omega⟩
      ⟨left, mem_append_left _ mem, ?_⟩
    have := below left mem
    simp only [Span.Has, Span.stop] at runs ⊢
    omega
  · intro right mem
    by_contra runs
    have first := above right mem
    have filled := separated.nonempty right (mem_append_right _ mem)
    refine out right.start ⟨first, by omega⟩ ⟨right, mem_append_right _ mem, Nat.le_refl _, ?_⟩
    simp only [Span.stop]
    omega

theorem Separated.joinRight (before : List Span) (span : Span) (separated : Separated (before ++ after)) (positive : 0 < span.len)
    (left : ∀ other ∈ before, other.stop < span.start) (right : ∀ other ∈ after, span.stop ≤ other.start) :
    Separated (before ++ Library.joinRight span after) ∧
      ∀ pos, Covered (before ++ Library.joinRight span after) pos ↔ span.Has pos ∨ Covered (before ++ after) pos := by
  rw [separated_append] at separated
  obtain ⟨first, snd, across⟩ := separated
  have across' : ∀ stop, ∀ low ∈ before, ∀ high ∈ Span.mk span.start stop :: after, low.stop < high.start := by
    intro stop low lowMember high highMember
    rcases mem_cons.mp highMember with rfl | mem
    · exact left low lowMember
    · exact across low lowMember high mem
  cases after with
  | nil =>
    simp only [Library.joinRight, separated_append, covered_append, covered_cons]
    refine ⟨⟨first, separated_cons.mpr ⟨positive, fun _ mem => (nomatch mem), separated_nil⟩,
      across' span.len⟩, fun pos => ?_⟩
    simp only [covered_nil, or_false]
    exact or_comm
  | cons next rest =>
    obtain ⟨nextPositive, nextGap, restSeparated⟩ := separated_cons.mp snd
    have nextAfter := right next (.head _)
    simp only [Library.joinRight]
    split
    next touch =>
      refine ⟨separated_append.mpr ⟨first, separated_cons.mpr ⟨by simp only; omega, ?_, restSeparated⟩, ?_⟩,
        fun pos => ?_⟩
      · intro other mem
        have := nextGap other mem
        simp only [Span.stop] at this touch ⊢
        omega
      · intro low lowMember high highMember
        rcases mem_cons.mp highMember with rfl | mem
        · exact left low lowMember
        · exact across low lowMember high (.tail _ mem)
      · simp only [covered_append, covered_cons]
        have joined : (Span.mk span.start (span.len + next.len)).Has pos ↔ span.Has pos ∨ next.Has pos := by
          simp only [Span.Has, Span.stop] at touch ⊢
          omega
        rw [joined]
        tauto
    next ne =>
      refine ⟨separated_append.mpr ⟨first, separated_cons.mpr ⟨positive, ?_, snd⟩, across' span.len⟩,
        fun pos => ?_⟩
      · intro other mem
        rcases mem_cons.mp mem with rfl | mem
        · exact Nat.lt_of_le_of_ne nextAfter ne
        · have := nextGap other mem
          simp only [Span.stop] at this nextAfter ⊢
          omega
      · simp only [covered_append, covered_cons]
        tauto

theorem Separated.insertSpan (separated : Separated (before ++ after)) (positive : 0 < span.len)
    (left : ∀ other ∈ before, other.stop ≤ span.start) (right : ∀ other ∈ after, span.stop ≤ other.start) :
    Separated (Library.insertSpan before span after) ∧
      ∀ pos, Covered (Library.insertSpan before span after) pos ↔ span.Has pos ∨ Covered (before ++ after) pos := by
  unfold Library.insertSpan
  cases nearest : before.getLast? with
  | none =>
    rw [getLast?_eq_none_iff] at nearest
    subst nearest
    exact Separated.joinRight [] span separated positive (fun _ mem => nomatch mem) right
  | some last =>
    obtain ⟨init, rfl⟩ : ∃ init, before = init ++ [last] :=
      ⟨before.dropLast, (dropLast_append_getLast? _ nearest).symm⟩
    have lastEnds := left last (by simp)
    obtain ⟨initLast, afterSeparated, across⟩ := separated_append.mp separated
    obtain ⟨initSeparated, _, gap⟩ := separated_append.mp initLast
    have initGap : ∀ other ∈ init, other.stop < last.start := fun other mem =>
      gap other mem last (.head _)
    simp only [dropLast_concat]
    split
    next touch =>
      have shorter : Separated (init ++ after) := separated_append.mpr ⟨initSeparated, afterSeparated,
        fun low lowMember high mem => across low (mem_append_left _ lowMember) high mem⟩
      obtain ⟨joined, covers⟩ := Separated.joinRight init ⟨last.start, last.len + span.len⟩ shorter
        (by simp only; omega) initGap (fun other mem => by
          have := right other mem
          simp only [Span.stop] at this touch ⊢
          omega)
      refine ⟨joined, fun pos => ?_⟩
      rw [covers]
      have both : (Span.mk last.start (last.len + span.len)).Has pos ↔ span.Has pos ∨ last.Has pos := by
        simp only [Span.Has, Span.stop] at touch ⊢
        omega
      simp only [covered_append, covered_cons, both]
      have none_ : ¬ Covered [] pos := covered_nil
      tauto
    next ne =>
      refine Separated.joinRight (init ++ [last]) span separated positive (fun other mem => ?_) right
      rcases mem_append.mp mem with mem | mem
      · have := initGap other mem
        simp only [Span.stop] at this lastEnds ⊢
        omega
      · grind

theorem Separated.dropFront {count : Nat} (separated : Separated (before ++ span :: after))
    (positive : 0 < count) (enough : count ≤ span.len) :
    Separated (before ++ (Library.dropFront span count ++ after)) ∧
      ∀ pos, Covered (before ++ (Library.dropFront span count ++ after)) pos ↔
        Covered (before ++ span :: after) pos ∧ ¬ (span.start ≤ pos ∧ pos < span.start + count) := by
  obtain ⟨first, snd, across⟩ := separated_append.mp separated
  obtain ⟨_, gap, rest⟩ := separated_cons.mp snd
  have outsideBefore : ∀ pos, Covered before pos → pos < span.start := by
    rintro pos ⟨other, mem, has⟩
    have := across other mem span (.head _)
    simp only [Span.Has] at has
    omega
  have outsideAfter : ∀ pos, Covered after pos → span.stop < pos := by
    rintro pos ⟨other, mem, has⟩
    have := gap other mem
    simp only [Span.Has] at has
    omega
  have covers : ∀ pos, (Covered (Library.dropFront span count) pos ↔
      span.Has pos ∧ ¬ (span.start ≤ pos ∧ pos < span.start + count)) := by
    intro pos
    unfold Library.dropFront
    split
    next whole =>
      refine ⟨fun hin => absurd hin covered_nil, fun hin => ?_⟩
      simp only [Span.Has, Span.stop] at hin
      omega
    next =>
      rw [covered_cons]
      simp only [covered_nil, or_false, Span.Has, Span.stop]
      omega
  constructor
  · refine separated_append.mpr ⟨first, separated_append.mpr ⟨?_, rest, ?_⟩, ?_⟩
    · unfold Library.dropFront
      split
      · exact separated_nil
      · exact separated_cons.mpr ⟨by simp only; omega, fun _ mem => (nomatch mem), separated_nil⟩
    · intro low lowMember high highMember
      have := gap high highMember
      unfold Library.dropFront at lowMember
      split at lowMember
      · exact nomatch lowMember
      · rw [mem_singleton.mp lowMember]
        simp only [Span.stop] at this ⊢
        omega
    · intro low lowMember high highMember
      rcases mem_append.mp highMember with mem | mem
      · have := across low lowMember span (.head _)
        unfold Library.dropFront at mem
        split at mem
        · exact nomatch mem
        · grind
      · exact across low lowMember high (.tail _ mem)
  · intro pos
    simp only [covered_append, covered_cons, covers]
    constructor
    · rintro (hin | ⟨hin, out⟩ | hin)
      · exact ⟨.inl hin, by have := outsideBefore pos hin; omega⟩
      · exact ⟨.inr (.inl hin), out⟩
      · refine ⟨.inr (.inr hin), ?_⟩
        have := outsideAfter pos hin
        simp only [Span.stop] at this
        omega
    · tauto

end RosKernel.Library
