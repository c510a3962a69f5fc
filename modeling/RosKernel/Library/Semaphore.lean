import Mathlib.Data.List.Nodup


/-! A binary semaphore that hands over to its waiters in order.

`Serves` is what its holders may rely on: those that claim it are the one that has it and the
ones that wait.
-/

set_option autoImplicit false

namespace RosKernel.Library

open List

structure Semaphore (Client : Type) where
  held : Bool
  waiters : List Client

namespace Semaphore

variable {Client : Type} {semaphore : Semaphore Client} {claims : Client → Prop} {client : Client}

/-- The client has the semaphore, or waits for it. -/
def acquire (semaphore : Semaphore Client) (client : Client) : Semaphore Client :=
  if semaphore.held then { semaphore with waiters := semaphore.waiters ++ [client] } else { semaphore with held := true }

/-- The first waiter has the semaphore, whoever had it. -/
def release (semaphore : Semaphore Client) : Semaphore Client :=
  match semaphore.waiters with
  | [] => { semaphore with held := false }
  | _ :: rest => { semaphore with waiters := rest }

section

variable {Other : Type} (f : Client → Other)
include f

def map (semaphore : Semaphore Client) : Semaphore Other :=
  ⟨semaphore.held, semaphore.waiters.map f⟩

theorem map_acquire (client : Client) : (semaphore.acquire client).map f = (semaphore.map f).acquire (f client) := by
  unfold acquire map
  cases semaphore.held
  · rfl
  · exact congrArg (Semaphore.mk true) map_append

theorem map_release : semaphore.release.map f = (semaphore.map f).release := by
  obtain ⟨held, waiters⟩ := semaphore
  cases waiters <;> rfl

end

theorem map_congr {Other : Type} {f f' : Client → Other} (eq : ∀ client ∈ semaphore.waiters, f client = f' client) :
    semaphore.map f = semaphore.map f' :=
  congrArg (Semaphore.mk semaphore.held) (map_congr_left eq)

theorem mem_acquire {other : Client} (waits : other ∈ (semaphore.acquire client).waiters) :
    other ∈ semaphore.waiters ∨ other = client ∧ semaphore.held = true := by
  unfold acquire at waits
  split at waits
  case isTrue held =>
    rcases mem_append.mp waits with pre | isNew
    · exact .inl pre
    · exact .inr ⟨mem_singleton.mp isNew, held⟩
  case isFalse => exact .inl waits

theorem mem_release {other : Client} (waits : other ∈ semaphore.release.waiters) : other ∈ semaphore.waiters := by
  unfold release at waits
  split at waits
  case h_1 => exact waits
  case h_2 first rest eq =>
    rw [eq]
    exact mem_cons_of_mem first waits

/-- Of the clients that claim the semaphore, those that wait are in the queue and one has it. -/
structure Serves (semaphore : Semaphore Client) (claims : Client → Prop) : Prop where
  waiting : ∀ client ∈ semaphore.waiters, claims client
  once : semaphore.waiters.Nodup
  held : ∀ client, claims client → semaphore.held = true
  alone : ∀ first second, claims first → claims second → first ∉ semaphore.waiters → second ∉ semaphore.waiters → first = second
  served : semaphore.held = true → ∃ client, claims client ∧ client ∉ semaphore.waiters

namespace Serves

theorem initial : Serves (⟨false, []⟩ : Semaphore Client) fun _ => False where
  waiting := forall_mem_nil _
  once := nodup_nil
  held _ claim := claim.elim
  alone _ _ claim := claim.elim
  served held := nomatch held

section

variable (serves : Serves semaphore claims)
include serves

theorem congr {others : Client → Prop} (eq : ∀ client, others client ↔ claims client) : Serves semaphore others := by
  obtain rfl : others = claims := funext fun client => propext (eq client)
  exact serves

theorem acquire (isNew : ¬ claims client) : Serves (semaphore.acquire client) fun other => claims other ∨ other = client := by
  have out : client ∉ semaphore.waiters := fun waits => isNew (serves.waiting client waits)
  unfold Semaphore.acquire
  split
  case isTrue held =>
    refine ⟨?_, ?_, fun _ _ => held, ?_, fun _ => ?_⟩
    · intro other waits
      rcases mem_append.mp waits with pre | isLast
      · exact .inl (serves.waiting other pre)
      · exact .inr (mem_singleton.mp isLast)
    · refine List.Nodup.append serves.once (nodup_singleton _) ?_
      rintro other pre isLast
      rw [mem_singleton.mp isLast] at pre
      exact out pre
    · rintro first snd firstClaims secondClaims firstHas secondHas
      rw [mem_append, mem_singleton, not_or] at firstHas secondHas
      exact serves.alone first snd (firstClaims.resolve_right firstHas.2) (secondClaims.resolve_right secondHas.2)
        firstHas.1 secondHas.1
    · obtain ⟨owner, claim, has⟩ := serves.served held
      refine ⟨owner, .inl claim, ?_⟩
      rw [mem_append, mem_singleton, not_or]
      exact ⟨has, fun eq => isNew (eq ▸ claim)⟩
  case isFalse free =>
    have none : ∀ other, ¬ claims other := fun other claim => free (serves.held other claim)
    refine ⟨?_, serves.once, fun _ _ => rfl, ?_, fun _ => ⟨client, .inr rfl, out⟩⟩
    · intro other waits
      exact .inl (serves.waiting other waits)
    · grind

theorem release (claim : claims client) (has : client ∉ semaphore.waiters) :
    Serves semaphore.release fun other => claims other ∧ other ≠ client := by
  have others : ∀ other, claims other ∧ other ≠ client → other ∈ semaphore.waiters := by
    rintro other ⟨otherClaims, ne⟩
    by_contra otherHas
    exact ne (serves.alone other client otherClaims claim otherHas has)
  unfold Semaphore.release
  split
  case h_1 none =>
    have gone : ∀ other, ¬ (claims other ∧ other ≠ client) := fun other waits => not_mem_nil (none ▸ others other waits)
    refine ⟨?_, serves.once, ?_, ?_, fun held => nomatch held⟩
    · grind
    · intro other waits
      exact (gone other waits).elim
    · intro first snd waits
      exact (gone first waits).elim
  case h_2 first rest queue =>
    have once : (first :: rest).Nodup := queue ▸ serves.once
    have inQueue : ∀ other, other ∈ first :: rest → claims other ∧ other ≠ client := by
      intro other waits
      rw [← queue] at waits
      exact ⟨serves.waiting other waits, fun eq => has (eq ▸ waits)⟩
    refine ⟨?_, (nodup_cons.mp once).2, fun _ _ => serves.held client claim, ?_, fun _ => ⟨first, inQueue first (.head _), ?_⟩⟩
    · grind
    · intro one two oneClaims twoClaims oneHas twoHas
      have isFirst : ∀ other, claims other ∧ other ≠ client → other ∉ rest → other = first := by
        intro other otherClaims out
        exact (mem_cons.mp (queue ▸ others other otherClaims)).resolve_right out
      rw [isFirst one oneClaims oneHas, isFirst two twoClaims twoHas]
    · exact (nodup_cons.mp once).1

end

end Serves

end Semaphore

end RosKernel.Library
