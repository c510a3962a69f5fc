import RosKernel.Library.Runs
import RosKernel.Library.Semaphore
import Mathlib.Data.Set.Card

/-! The readers-writer lock, `Include/rwlock_simple.hpp`, under any interleaving of its callers.

A mutex is a semaphore with a queue. Between two of its operations a caller stands at a program
point; the increment and the decrement of the count are a load and a store.
-/

set_option autoImplicit false

namespace RosKernel.Tasking

open Library
open Function (update update_of_ne update_self)

/-- Where a task stands: outside the lock, inside it, or before a statement of one of the four functions. -/
inductive Point where
  | outside
  | finished
  | enterRead
  | loadEnter
  | storeEnter (count : Int)
  | testEnter
  | lockGlobal
  | unlockEnter
  | reading
  | leaveRead
  | loadLeave
  | storeLeave (count : Int)
  | testLeave
  | unlockGlobal
  | unlockLeave
  | enterWrite
  | writing
  | leaveWrite
deriving DecidableEq

namespace Point

/-- Behind the acquisition of `ReaderLock` and before its release. -/
@[simp] def InSection : Point → Prop
  | loadEnter | storeEnter _ | testEnter | lockGlobal | unlockEnter
  | loadLeave | storeLeave _ | testLeave | unlockGlobal | unlockLeave => True
  | _ => False

/-- Behind the increment of the count and before its decrement. -/
@[simp] def Counted : Point → Prop
  | testEnter | lockGlobal | unlockEnter | reading | leaveRead | loadLeave | storeLeave _ => True
  | _ => False

/-- The readers have asked for `GlobalLock`, and not given it back. -/
@[simp] def Joined : Point → Prop
  | unlockEnter | reading | leaveRead | loadLeave | storeLeave _ | testLeave | unlockGlobal => True
  | _ => False

@[simp] def Writes : Point → Prop
  | writing | leaveWrite => True
  | _ => False

end Point

structure RwLock (Task : Type) where
  readerLock : Semaphore Task
  globalLock : Semaphore Task
  readerCount : Int

structure RwRun (Task : Type) extends RwLock Task where
  point : Task → Point

inductive RwCall where
  | acquireRead
  | releaseRead
  | acquireWrite
  | releaseWrite
  | finish
  | goOn
deriving DecidableEq

variable {Task : Type}

/-- The statement at a program point, and the point behind it. -/
def RwLock.statement (lock : RwLock Task) (me : Task) : Point → Option (RwLock Task × Point)
  | .enterRead => some ({ lock with readerLock := lock.readerLock.acquire me }, .loadEnter)
  | .loadEnter => some (lock, .storeEnter lock.readerCount)
  | .storeEnter count => some ({ lock with readerCount := count + 1 }, .testEnter)
  | .testEnter => some (lock, if lock.readerCount = 1 then .lockGlobal else .unlockEnter)
  | .lockGlobal => some ({ lock with globalLock := lock.globalLock.acquire me }, .unlockEnter)
  | .unlockEnter => some ({ lock with readerLock := lock.readerLock.release }, .reading)
  | .leaveRead => some ({ lock with readerLock := lock.readerLock.acquire me }, .loadLeave)
  | .loadLeave => some (lock, .storeLeave lock.readerCount)
  | .storeLeave count => some ({ lock with readerCount := count - 1 }, .testLeave)
  | .testLeave => some (lock, if lock.readerCount = 0 then .unlockGlobal else .unlockLeave)
  | .unlockGlobal => some ({ lock with globalLock := lock.globalLock.release }, .unlockLeave)
  | .unlockLeave => some ({ lock with readerLock := lock.readerLock.release }, .outside)
  | .enterWrite => some ({ lock with globalLock := lock.globalLock.acquire me }, .writing)
  | .leaveWrite => some ({ lock with globalLock := lock.globalLock.release }, .outside)
  | .outside | .finished | .reading | .writing => none

namespace RwRun

/-- A task that waits for a mutex does nothing. -/
def Blocked (run : RwRun Task) (t : Task) : Prop := t ∈ run.readerLock.waiters ∨ t ∈ run.globalLock.waiters

section

variable [DecidableEq Task]

instance (run : RwRun Task) (t : Task) : Decidable (run.Blocked t) := inferInstanceAs (Decidable (_ ∨ _))

def goTo (run : RwRun Task) (t : Task) (point : Point) : RwRun Task := { run with point := update run.point t point }

def step (run : RwRun Task) (op : Task × RwCall) : Option (RwRun Task) :=
  if run.Blocked op.1 then none
  else
    match op.2, run.point op.1 with
    | .acquireRead, .outside => some (run.goTo op.1 .enterRead)
    | .acquireWrite, .outside => some (run.goTo op.1 .enterWrite)
    | .finish, .outside => some (run.goTo op.1 .finished)
    | .releaseRead, .reading => some (run.goTo op.1 .leaveRead)
    | .releaseWrite, .writing => some (run.goTo op.1 .leaveWrite)
    | .goOn, point => (run.toRwLock.statement op.1 point).map fun (lock, behind) => RwRun.goTo { run with toRwLock := lock } op.1 behind
    | _, _ => none

end

/-- `RwLock()`, with tasks that have not used it. -/
def initial (point : Task → Point) : RwRun Task := ⟨⟨⟨false, []⟩, ⟨false, []⟩, 0⟩, point⟩

/-- What a task that waits for `GlobalLock` claims it for: itself to write, or the readers. -/
def claimOf (point : Task → Point) (t : Task) : Option Task := if point t = .writing then some t else none

/-- Who claims `GlobalLock`: each writer, and the readers as one. -/
def claims (point : Task → Point) : Option Task → Prop
  | some t => (point t).Writes
  | none => ∃ t, (point t).Joined

structure Sound (run : RwRun Task) : Prop where
  reader : run.readerLock.Serves fun t => (run.point t).InSection
  readerWaits : ∀ t ∈ run.readerLock.waiters, run.point t = .loadEnter ∨ run.point t = .loadLeave
  loaded : ∀ t count, run.point t = .storeEnter count ∨ run.point t = .storeLeave count → count = run.readerCount
  counted : ∃ readers : Finset Task, (∀ t, t ∈ readers ↔ (run.point t).Counted) ∧ run.readerCount = readers.card
  global : (run.globalLock.map (claimOf run.point)).Serves (claims run.point)
  globalWaits : ∀ t ∈ run.globalLock.waiters, run.point t = .writing ∨ run.point t = .unlockEnter ∧ run.readerCount = 1
  first : ∀ t, run.point t = .lockGlobal → run.readerCount = 1
  last : ∀ t, run.point t = .unlockGlobal → run.readerCount = 0

variable {run : RwRun Task} {t u : Task} {behind : Point}

theorem initial_sound {point : Task → Point} (idle : ∀ t, point t = .outside ∨ point t = .finished) : (initial point).Sound := by
  have nowhere : ∀ (P : Point → Prop), ¬ P .outside → ¬ P .finished → ∀ t, ¬ P (point t) := by
    intro P out finished t
    rcases idle t with eq | eq
    · rwa [eq]
    · rwa [eq]
  refine ⟨?_, List.forall_mem_nil _, ?_, ⟨∅, ?_, rfl⟩, ?_, List.forall_mem_nil _, ?_, ?_⟩
  · refine Semaphore.Serves.initial.congr fun t => ?_
    exact iff_of_false (nowhere Point.InSection id id t) id
  · intro t count isStore
    rcases isStore with eq | eq
    · exact (nowhere (· = .storeEnter count) (nomatch ·) (nomatch ·) t eq).elim
    · exact (nowhere (· = .storeLeave count) (nomatch ·) (nomatch ·) t eq).elim
  · intro t
    exact iff_of_false (Finset.notMem_empty t) (nowhere Point.Counted id id t)
  · refine Semaphore.Serves.initial.congr fun claim => ?_
    cases claim with
    | none => exact iff_of_false (fun ⟨t, joined⟩ => nowhere Point.Joined id id t joined) id
    | some t => exact iff_of_false (nowhere Point.Writes id id t) id
  · intro t eq
    exact (nowhere (· = .lockGlobal) (nomatch ·) (nomatch ·) t eq).elim
  · intro t eq
    exact (nowhere (· = .unlockGlobal) (nomatch ·) (nomatch ·) t eq).elim

namespace Sound

section

variable (sound : run.Sound) (mine : (run.point t).InSection) (notWaiting : ¬ run.Blocked t)
include sound mine notWaiting

theorem alone (other : (run.point u).InSection) (enters : run.point u ≠ .loadEnter) (leaves : run.point u ≠ .loadLeave) :
    u = t := by
  apply sound.reader.alone u t other mine
  · intro waits
    exact (sound.readerWaits u waits).elim enters leaves
  · exact fun waits => notWaiting (.inl waits)

theorem joined (ne : u ≠ t) (cnt : (run.point u).Counted) : (run.point u).Joined := by
  have alone := sound.alone (u := u) mine notWaiting
  cases where_ : run.point u with
  | testEnter => exact (ne (alone (by rw [where_]; trivial) (by simp [where_]) (by simp [where_]))).elim
  | lockGlobal => exact (ne (alone (by rw [where_]; trivial) (by simp [where_]) (by simp [where_]))).elim
  | unlockEnter | reading | leaveRead | loadLeave | storeLeave count => trivial
  | _ =>
    rw [where_] at cnt
    exact cnt.elim

theorem counted_of_joined (ne : u ≠ t) (joined : (run.point u).Joined) : (run.point u).Counted := by
  have alone := sound.alone (u := u) mine notWaiting
  cases where_ : run.point u with
  | testLeave => exact (ne (alone (by rw [where_]; trivial) (by simp [where_]) (by simp [where_]))).elim
  | unlockGlobal => exact (ne (alone (by rw [where_]; trivial) (by simp [where_]) (by simp [where_]))).elim
  | unlockEnter | reading | leaveRead | loadLeave | storeLeave count => trivial
  | _ =>
    rw [where_] at joined
    exact joined.elim

end

theorem none_counted (sound : run.Sound) (count : run.readerCount = 0) : ¬ (run.point u).Counted := by
  obtain ⟨readers, members, card⟩ := sound.counted
  intro cnt
  have pos := Finset.card_pos.mpr ⟨u, (members u).mpr cnt⟩
  omega

theorem one_counted (sound : run.Sound) (count : run.readerCount = 1) (mine : (run.point t).Counted) (other : (run.point u).Counted) :
    u = t := by
  obtain ⟨readers, members, card⟩ := sound.counted
  exact Finset.card_le_one.mp (by omega) u ((members u).mpr other) t ((members t).mpr mine)

theorem some_counted (sound : run.Sound) (count : run.readerCount ≠ 0) : ∃ u, (run.point u).Counted := by
  obtain ⟨readers, members, card⟩ := sound.counted
  have nonempty : 0 < readers.card := by omega
  obtain ⟨u, mem⟩ := Finset.card_pos.mp nonempty
  exact ⟨u, (members u).mp mem⟩

theorem another_counted (sound : run.Sound) (count : run.readerCount ≠ 1) (mine : (run.point t).Counted) :
    ∃ u, u ≠ t ∧ (run.point u).Counted := by
  obtain ⟨readers, members, card⟩ := sound.counted
  have several : 1 < readers.card := by
    have pos := Finset.card_pos.mpr ⟨t, (members t).mpr mine⟩
    omega
  obtain ⟨u, mem, ne⟩ := Finset.exists_mem_ne several t
  exact ⟨u, ne, (members u).mp mem⟩

end Sound

section

variable [DecidableEq Task]

theorem update_of_mem {waiters : List Task} (out : t ∉ waiters) (mem : u ∈ waiters) :
    update run.point t behind u = run.point u :=
  update_of_ne (fun eq : u = t => out (eq ▸ mem)) _ _

theorem forall_update {P : Task → Point → Prop} (others : ∀ u, u ≠ t → P u (run.point u)) (mine : P t behind) (u : Task) :
    P u (update run.point t behind u) := by
  by_cases eq : u = t
  · subst eq
    rwa [update_self]
  · rw [update_of_ne eq]
    exact others u eq

section

variable (sound : run.Sound)
include sound

theorem reader_kept (eq : behind.InSection ↔ (run.point t).InSection) :
    run.readerLock.Serves fun u => (update run.point t behind u).InSection :=
  sound.reader.congr (forall_update (P := fun u point => point.InSection ↔ (run.point u).InSection) (fun _ _ => .rfl) eq)

theorem reader_acquired (pre : ¬ (run.point t).InSection) (after : behind.InSection) :
    (run.readerLock.acquire t).Serves fun u => (update run.point t behind u).InSection := by
  refine (sound.reader.acquire pre).congr ?_
  apply forall_update (P := fun u point => point.InSection ↔ (run.point u).InSection ∨ u = t)
  · intro u ne
    exact (or_iff_left ne).symm
  · exact iff_of_true after (.inr rfl)

theorem reader_released (free : ¬ run.Blocked t) (pre : (run.point t).InSection) (after : ¬ behind.InSection) :
    run.readerLock.release.Serves fun u => (update run.point t behind u).InSection := by
  refine (sound.reader.release pre fun waits => free (.inl waits)).congr ?_
  apply forall_update (P := fun u point => point.InSection ↔ (run.point u).InSection ∧ u ≠ t)
  · intro u ne
    exact (and_iff_left ne).symm
  · exact iff_of_false after fun both => both.2 rfl

theorem counted_kept (eq : behind.Counted ↔ (run.point t).Counted) :
    ∃ readers : Finset Task, (∀ u, u ∈ readers ↔ (update run.point t behind u).Counted) ∧ run.readerCount = readers.card := by
  obtain ⟨readers, members, count⟩ := sound.counted
  refine ⟨readers, ?_, count⟩
  exact forall_update (P := fun u point => u ∈ readers ↔ point.Counted) (fun u _ => members u) ((members t).trans eq.symm)

theorem counted_inserted (pre : ¬ (run.point t).Counted) (after : behind.Counted) :
    ∃ readers : Finset Task, (∀ u, u ∈ readers ↔ (update run.point t behind u).Counted) ∧
      run.readerCount + 1 = readers.card := by
  obtain ⟨readers, members, count⟩ := sound.counted
  have out : t ∉ readers := fun mem => pre ((members t).mp mem)
  refine ⟨insert t readers, ?_, ?_⟩
  · apply forall_update (P := fun u point => u ∈ insert t readers ↔ point.Counted)
    · grind
    · exact iff_of_true (Finset.mem_insert_self t readers) after
  · rw [Finset.card_insert_of_notMem out, count]
    rfl

theorem counted_erased (pre : (run.point t).Counted) (after : ¬ behind.Counted) :
    ∃ readers : Finset Task, (∀ u, u ∈ readers ↔ (update run.point t behind u).Counted) ∧
      run.readerCount - 1 = readers.card := by
  obtain ⟨readers, members, count⟩ := sound.counted
  have hin : t ∈ readers := (members t).mpr pre
  refine ⟨readers.erase t, ?_, ?_⟩
  · apply forall_update (P := fun u point => u ∈ readers.erase t ↔ point.Counted)
    · grind
    · exact iff_of_false (Finset.notMem_erase t readers) after
  · have pos := Finset.card_pos.mpr ⟨t, hin⟩
    rw [Finset.card_erase_of_mem hin, count]
    omega

end

theorem map_claimOf_update (free : ¬ run.Blocked t) :
    run.globalLock.map (claimOf (update run.point t behind)) = run.globalLock.map (claimOf run.point) := by
  apply Semaphore.map_congr
  intro u waits
  unfold claimOf
  rw [update_of_mem (fun mine => free (.inr mine)) waits]

theorem claims_update (writes : behind.Writes ↔ (run.point t).Writes)
    (joins : (∃ u, (update run.point t behind u).Joined) ↔ ∃ u, (run.point u).Joined) (claim : Option Task) :
    claims (update run.point t behind) claim ↔ claims run.point claim := by
  cases claim with
  | none => exact joins
  | some u => exact forall_update (P := fun u point => point.Writes ↔ (run.point u).Writes) (fun _ _ => .rfl) writes u

theorem global_kept (sound : run.Sound) (free : ¬ run.Blocked t) (writes : behind.Writes ↔ (run.point t).Writes)
    (joins : (∃ u, (update run.point t behind u).Joined) ↔ ∃ u, (run.point u).Joined) :
    (run.globalLock.map (claimOf (update run.point t behind))).Serves (claims (update run.point t behind)) := by
  rw [map_claimOf_update free]
  exact sound.global.congr (claims_update writes joins)

theorem joins_of (pre : (run.point t).Joined ∨ ∃ u, u ≠ t ∧ (run.point u).Joined)
    (after : behind.Joined ∨ ∃ u, u ≠ t ∧ (run.point u).Joined) :
    (∃ u, (update run.point t behind u).Joined) ↔ ∃ u, (run.point u).Joined := by
  apply iff_of_true
  · rcases after with mine | ⟨u, ne, joined⟩
    · exact ⟨t, by rwa [update_self]⟩
    · exact ⟨u, by rwa [update_of_ne ne]⟩
  · rcases pre with mine | ⟨u, _, joined⟩
    · exact ⟨t, mine⟩
    · exact ⟨u, joined⟩

theorem joins_same (eq : behind.Joined ↔ (run.point t).Joined) :
    (∃ u, (update run.point t behind u).Joined) ↔ ∃ u, (run.point u).Joined :=
  exists_congr (forall_update (P := fun u point => point.Joined ↔ (run.point u).Joined) (fun _ _ => .rfl) eq)

end

end RwRun

end RosKernel.Tasking
