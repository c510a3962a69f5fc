import Mathlib.Init

/-! Runs of a partial transition system whose steps each meet a condition.

A step that has no successor ends the run: the caller faulted or never returned.
The condition is evaluated in the state before the step.
-/

set_option autoImplicit false

namespace RosKernel.Library

variable {State Op : Type}

/-- States reached from `init` by steps that meet `allowed` where they start. -/
inductive Reaches (step : State → Op → Option State) (allowed : State → Op → Prop)
    (init : State) : State → Prop where
  | start : Reaches step allowed init init
  | next {state after : State} (op : Op) : Reaches step allowed init state →
      allowed state op → step state op = some after → Reaches step allowed init after

section

variable {step : State → Op → Option State} {allowed : State → Op → Prop} {init state : State}
  (hr : Reaches step allowed init state)
include hr

theorem Reaches.invariant (inv : State → Prop) (initial : inv init)
    (preserved : ∀ state op after, inv state → allowed state op → step state op = some after → inv after) : inv state := by
  induction hr with
  | start => exact initial
  | next op _ allow ht ih => exact preserved _ _ _ ih allow ht

theorem Reaches.mono {weaker : State → Op → Prop} (weakens : ∀ state op, allowed state op → weaker state op) :
    Reaches step weaker init state := by
  induction hr with
  | start => exact .start
  | next op _ allow ht ih => exact .next op ih (weakens _ op allow) ht

end

/-- The state after the operations, if each meets `allowed` where it starts and has a successor. -/
def runAll (step : State → Op → Option State) (allowed : State → Op → Prop) [∀ state op, Decidable (allowed state op)] :
    List Op → State → Option State
  | [], state => some state
  | op :: ops, state => if allowed state op then (step state op).bind (runAll step allowed ops) else none

theorem Reaches.runAll {step : State → Op → Option State} {allowed : State → Op → Prop}
    [∀ state op, Decidable (allowed state op)] {ops : List Op} {init state after : State}
    (hr : Reaches step allowed init state) (ran : runAll step allowed ops state = some after) :
    Reaches step allowed init after := by
  induction ops generalizing state with
  | nil => exact Option.some.inj ran ▸ hr
  | cons op ops ih =>
    unfold Library.runAll at ran
    split at ran
    case isTrue allow =>
      obtain ⟨mid, ht, rest⟩ := Option.bind_eq_some_iff.mp ran
      exact ih (.next op hr allow ht) rest
    case isFalse => exact nomatch ran

end RosKernel.Library
