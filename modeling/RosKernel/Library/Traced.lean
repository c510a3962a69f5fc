import Mathlib.Init

/-! Calls that change a state and report events, and the record an observer keeps of them.

`Leads` is the weakest precondition of a result that has been computed: what holds
of the state and of the record once its events have been observed.
-/

set_option autoImplicit false

namespace RosKernel.Library

open List

/-- A state after some calls and what they reported, in order. -/
abbrev Traced (State Event : Type) := State × List Event

namespace Traced

variable {State Event Ghost : Type}

/-- The second call continues on the state the first one left. -/
def next (first : Traced State Event) (call : State → Traced State Event) : Traced State Event :=
  ((call first.1).1, first.2 ++ (call first.1).2)

def Leads (record : Ghost → Event → Ghost) (result : Traced State Event) (ghost : Ghost)
    (post : State → Ghost → Prop) : Prop :=
  post result.1 (result.2.foldl record ghost)

variable {record : Ghost → Event → Ghost} {result : Traced State Event} {ghost : Ghost}
  {middle post : State → Ghost → Prop}

theorem Leads.next {call : State → Traced State Event} (first : result.Leads record ghost middle)
    (snd : ∀ state seen, middle state seen → (call state).Leads record seen post) :
    (result.next call).Leads record ghost post := by
  unfold Leads Traced.next
  rw [foldl_append]
  exact snd _ _ first

theorem Leads.mono (leads : result.Leads record ghost middle)
    (weaker : ∀ state seen, middle state seen → post state seen) : result.Leads record ghost post :=
  weaker _ _ leads

theorem Leads.silent {state : State} (holds : post state ghost) :
    Leads record ((state, []) : Traced State Event) ghost post := holds

/-- Each event is right after the events before it. -/
def Throughout (right : List Event → Event → Prop) (events : List Event) : Prop :=
  ∀ before event after, events = before ++ event :: after → right before event

section

variable {right : List Event → Event → Prop} {events : List Event} {event : Event}

theorem Throughout.nil : Throughout right ([] : List Event) := by
  intro pre event after empty
  cases pre <;> exact nomatch empty

theorem Throughout.snoc (earlier : Throughout right events) (now : right events event) : Throughout right (events ++ [event]) := by
  intro pre hf after split
  rcases eq_nil_or_concat after with rfl | ⟨mid, last, rfl⟩
  · obtain ⟨rfl, eq⟩ := append_inj' split rfl
    exact (cons.inj eq).1 ▸ now
  · rw [concat_eq_append, ← cons_append, ← append_assoc] at split
    exact earlier _ _ _ (append_inj' split rfl).1

theorem Throughout.append {more : List Event} (earlier : Throughout right events)
    (always : ∀ event ∈ more, ∀ pre, right pre event) : Throughout right (events ++ more) := by
  induction more generalizing events with
  | nil => exact (append_nil events).symm ▸ earlier
  | cons event more ih =>
    obtain ⟨now, later⟩ := forall_mem_cons.mp always
    rw [append_cons]
    exact ih (earlier.snoc (now events)) later

end

end Traced

end RosKernel.Library
