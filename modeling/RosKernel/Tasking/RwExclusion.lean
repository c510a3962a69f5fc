import RosKernel.Tasking.RwLock

/-! Readers and writers exclude one another, in every state that their calls reach. -/

set_option autoImplicit false

namespace RosKernel.Tasking

open Library List
open Function (update update_self)

variable {Task : Type} [DecidableEq Task]

namespace RwRun

variable {run : RwRun Task} {lock : RwLock Task} {t u : Task} {behind : Point}

section

variable (sound : run.Sound) (free : ¬ run.Blocked t)
include sound free

theorem Sound.moved (reader : lock.readerLock.Serves fun u => (update run.point t behind u).InSection)
    (readerWaits : ∀ u ∈ lock.readerLock.waiters, u ∈ run.readerLock.waiters ∨ u = t ∧ (behind = .loadEnter ∨ behind = .loadLeave))
    (cnt : ∃ readers : Finset Task, (∀ u, u ∈ readers ↔ (update run.point t behind u).Counted) ∧ lock.readerCount = readers.card)
    (count : lock.readerCount = run.readerCount ∨ (run.point t).InSection)
    (global : (lock.globalLock.map (claimOf (update run.point t behind))).Serves (claims (update run.point t behind)))
    (globalWaits : ∀ u ∈ lock.globalLock.waiters, u ∈ run.globalLock.waiters ∨ u = t ∧ (behind = .writing ∨ behind = .unlockEnter ∧ lock.readerCount = 1))
    (loaded : ∀ count, behind = .storeEnter count ∨ behind = .storeLeave count → count = lock.readerCount)
    (first : behind = .lockGlobal → lock.readerCount = 1) (last : behind = .unlockGlobal → lock.readerCount = 0) :
    RwRun.Sound ⟨lock, update run.point t behind⟩ := by
  -- another task at a point of the section that does not wait for it would have seen the count pre
  have others : ∀ u, u ≠ t → (run.point u).InSection → run.point u ≠ .loadEnter → run.point u ≠ .loadLeave →
      lock.readerCount = run.readerCount := by
    intro u ne inSection enters leaves
    exact count.resolve_right fun mine => ne (sound.alone mine free inSection enters leaves)
  refine ⟨reader, ?_, ?_, cnt, global, ?_, ?_, ?_⟩
  · intro u waits
    rcases readerWaits u waits with old | ⟨rfl, arrives⟩
    · have kept : update run.point t behind u = run.point u := update_of_mem (fun mine => free (.inl mine)) old
      change update run.point t behind u = _ ∨ update run.point t behind u = _
      rw [kept]
      exact sound.readerWaits u old
    · grind
  · apply forall_update (P := fun u point => ∀ count, point = .storeEnter count ∨ point = .storeLeave count → count = lock.readerCount)
    · intro u ne count isStore
      rw [sound.loaded u count isStore]
      refine (others u ne ?_ ?_ ?_).symm <;> rcases isStore with eq | eq <;> simp [eq, Point.InSection]
    · exact loaded
  · intro u waits
    rcases globalWaits u waits with old | ⟨rfl, arrives⟩
    · have kept : update run.point t behind u = run.point u := update_of_mem (fun mine => free (.inr mine)) old
      have ne : u ≠ t := fun eq => free (.inr (eq ▸ old))
      change update run.point t behind u = _ ∨ update run.point t behind u = _ ∧ _
      rw [kept]
      refine (sound.globalWaits u old).imp_right fun ⟨h, one⟩ => ⟨h, ?_⟩
      rw [others u ne (by simp [h, Point.InSection]) (by simp [h]) (by simp [h])]
      exact one
    · grind
  · apply forall_update (P := fun u point => point = .lockGlobal → lock.readerCount = 1)
    · intro u ne h
      rw [others u ne (by simp [h, Point.InSection]) (by simp [h]) (by simp [h])]
      exact sound.first u h
    · exact first
  · apply forall_update (P := fun u point => point = .unlockGlobal → lock.readerCount = 0)
    · intro u ne h
      rw [others u ne (by simp [h, Point.InSection]) (by simp [h]) (by simp [h])]
      exact sound.last u h
    · exact last

theorem Sound.goTo (sections : behind.InSection ↔ (run.point t).InSection) (counts : behind.Counted ↔ (run.point t).Counted)
    (writes : behind.Writes ↔ (run.point t).Writes)
    (joins : (∃ u, (update run.point t behind u).Joined) ↔ ∃ u, (run.point u).Joined)
    (loaded : ∀ count, behind = .storeEnter count ∨ behind = .storeLeave count → count = run.readerCount)
    (first : behind = .lockGlobal → run.readerCount = 1) (last : behind = .unlockGlobal → run.readerCount = 0) :
    (run.goTo t behind).Sound :=
  sound.moved free (reader_kept sound sections) (fun _ old => .inl old) (counted_kept sound counts) (.inl rfl)
    (global_kept sound free writes joins) (fun _ old => .inl old) loaded first last

theorem Sound.acquireReader
    (h : run.point t = .enterRead ∧ behind = .loadEnter ∨ run.point t = .leaveRead ∧ behind = .loadLeave) :
    RwRun.Sound ⟨{ run.toRwLock with readerLock := run.readerLock.acquire t }, update run.point t behind⟩ := by
  have facts : ¬ (run.point t).InSection ∧ behind.InSection ∧ (behind.Counted ↔ (run.point t).Counted) ∧
      (behind.Writes ↔ (run.point t).Writes) ∧ (behind.Joined ↔ (run.point t).Joined) := by
    rcases h with ⟨pre, rfl⟩ | ⟨pre, rfl⟩ <;> simp [pre, Point.InSection, Point.Counted, Point.Writes, Point.Joined]
  obtain ⟨out, hin, counts, writes, joined⟩ := facts
  refine sound.moved free (reader_acquired sound out hin) ?_ (counted_kept sound counts) (.inl rfl)
    (global_kept sound free writes (joins_same joined)) (fun _ old => .inl old) ?_ ?_ ?_
  · intro u waits
    refine (Semaphore.mem_acquire waits).imp_right fun ⟨eq, _⟩ => ⟨eq, ?_⟩
    exact h.imp And.right And.right
  all_goals rcases h with ⟨_, rfl⟩ | ⟨_, rfl⟩ <;> simp

theorem Sound.releaseReader
    (h : run.point t = .unlockEnter ∧ behind = .reading ∨ run.point t = .unlockLeave ∧ behind = .outside) :
    RwRun.Sound ⟨{ run.toRwLock with readerLock := run.readerLock.release }, update run.point t behind⟩ := by
  have facts : (run.point t).InSection ∧ ¬ behind.InSection ∧ (behind.Counted ↔ (run.point t).Counted) ∧
      (behind.Writes ↔ (run.point t).Writes) ∧ (behind.Joined ↔ (run.point t).Joined) := by
    rcases h with ⟨pre, rfl⟩ | ⟨pre, rfl⟩ <;> simp [pre, Point.InSection, Point.Counted, Point.Writes, Point.Joined]
  obtain ⟨hin, out, counts, writes, joined⟩ := facts
  refine sound.moved free (reader_released sound free hin out) (fun _ waits => .inl (Semaphore.mem_release waits))
    (counted_kept sound counts) (.inl rfl) (global_kept sound free writes (joins_same joined)) (fun _ old => .inl old) ?_ ?_ ?_
  all_goals rcases h with ⟨_, rfl⟩ | ⟨_, rfl⟩ <;> simp

theorem Sound.increment {count : Int} (h : run.point t = .storeEnter count) :
    RwRun.Sound ⟨{ run.toRwLock with readerCount := count + 1 }, update run.point t .testEnter⟩ := by
  obtain rfl := sound.loaded t count (.inl h)
  refine sound.moved free (reader_kept sound (by simp [h, Point.InSection])) (fun _ old => .inl old)
    (counted_inserted sound (by simp [h, Point.Counted]) trivial) (.inr (by simp [h, Point.InSection]))
    (global_kept sound free (by simp [h, Point.Writes]) (joins_same (by simp [h, Point.Joined])))
    (fun _ old => .inl old) ?_ ?_ ?_ <;> simp

theorem Sound.decrement {count : Int} (h : run.point t = .storeLeave count) :
    RwRun.Sound ⟨{ run.toRwLock with readerCount := count - 1 }, update run.point t .testLeave⟩ := by
  obtain rfl := sound.loaded t count (.inr h)
  refine sound.moved free (reader_kept sound (by simp [h, Point.InSection])) (fun _ old => .inl old)
    (counted_erased sound (by simp [h, Point.Counted]) (by simp [Point.Counted])) (.inr (by simp [h, Point.InSection]))
    (global_kept sound free (by simp [h, Point.Writes]) (joins_same (by simp [h, Point.Joined])))
    (fun _ old => .inl old) ?_ ?_ ?_ <;> simp

theorem Sound.acquireGlobal
    (h : run.point t = .lockGlobal ∧ behind = .unlockEnter ∨ run.point t = .enterWrite ∧ behind = .writing) :
    RwRun.Sound ⟨{ run.toRwLock with globalLock := run.globalLock.acquire t }, update run.point t behind⟩ := by
  have facts : (behind.InSection ↔ (run.point t).InSection) ∧ (behind.Counted ↔ (run.point t).Counted) := by
    rcases h with ⟨pre, rfl⟩ | ⟨pre, rfl⟩ <;> simp [pre, Point.InSection, Point.Counted]
  have global : ((run.globalLock.acquire t).map (claimOf (update run.point t behind))).Serves
      (claims (update run.point t behind)) := by
    rw [Semaphore.map_acquire, map_claimOf_update free]
    rcases h with ⟨pre, rfl⟩ | ⟨pre, rfl⟩
    · -- the first reader claims the lock for all of them
      have mine : claimOf (update run.point t .unlockEnter) t = none := by simp [claimOf]
      have nobody : ∀ u, ¬ (run.point u).Joined := by
        intro u joined
        by_cases eq : u = t
        · subst eq
          simp [pre, Point.Joined] at joined
        · have cnt := sound.counted_of_joined (by simp [pre, Point.InSection]) free eq joined
          exact eq (sound.one_counted (sound.first t pre) (by simp [pre, Point.Counted]) cnt)
      rw [mine]
      have isNew : ¬ claims run.point none := fun ⟨u, joined⟩ => nobody u joined
      refine (sound.global.acquire isNew).congr fun claim => ?_
      cases claim with
      | none => exact iff_of_true ⟨t, by simp [Point.Joined]⟩ (.inr rfl)
      | some u =>
        rw [or_iff_left (Option.some_ne_none u)]
        apply forall_update (P := fun u point => point.Writes ↔ (run.point u).Writes) (fun _ _ => .rfl)
        simp [pre, Point.Writes]
    · have mine : claimOf (update run.point t .writing) t = some t := by simp [claimOf]
      have isNew : ¬ claims run.point (some t) := by simp [claims, pre, Point.Writes]
      rw [mine]
      refine (sound.global.acquire isNew).congr fun claim => ?_
      cases claim with
      | none =>
        rw [or_iff_left (Option.some_ne_none t).symm]
        exact joins_same (by simp [pre, Point.Joined])
      | some u =>
        apply forall_update (P := fun u point => point.Writes ↔ (run.point u).Writes ∨ some u = some t)
        · grind
        · exact iff_of_true trivial (.inr rfl)
  refine sound.moved free (reader_kept sound facts.1) (fun _ old => .inl old) (counted_kept sound facts.2) (.inl rfl) global
    ?_ ?_ ?_ ?_
  · intro u waits
    refine (Semaphore.mem_acquire waits).imp_right fun ⟨eq, _⟩ => ⟨eq, ?_⟩
    rcases h with ⟨pre, rfl⟩ | ⟨_, rfl⟩
    · exact .inr ⟨rfl, sound.first t pre⟩
    · exact .inl rfl
  all_goals rcases h with ⟨_, rfl⟩ | ⟨_, rfl⟩ <;> simp

theorem Sound.releaseGlobal
    (h : run.point t = .unlockGlobal ∧ behind = .unlockLeave ∨ run.point t = .leaveWrite ∧ behind = .outside) :
    RwRun.Sound ⟨{ run.toRwLock with globalLock := run.globalLock.release }, update run.point t behind⟩ := by
  have facts : (behind.InSection ↔ (run.point t).InSection) ∧ (behind.Counted ↔ (run.point t).Counted) := by
    rcases h with ⟨pre, rfl⟩ | ⟨pre, rfl⟩ <;> simp [pre, Point.InSection, Point.Counted]
  have global : (run.globalLock.release.map (claimOf (update run.point t behind))).Serves
      (claims (update run.point t behind)) := by
    rw [Semaphore.map_release, map_claimOf_update free]
    rcases h with ⟨pre, rfl⟩ | ⟨pre, rfl⟩
    · have count := sound.last t pre
      have mine : claims run.point none := ⟨t, by simp [pre, Point.Joined]⟩
      have has : none ∉ (run.globalLock.map (claimOf run.point)).waiters := by
        intro waits
        obtain ⟨u, inQueue, isNone⟩ := mem_map.mp waits
        rcases sound.globalWaits u inQueue with writes | ⟨_, one⟩
        · simp [claimOf, writes] at isNone
        · omega
      refine (sound.global.release mine has).congr fun claim => ?_
      cases claim with
      | none =>
        apply iff_of_false ?_ fun both => both.2 rfl
        rintro ⟨u, joined⟩
        by_cases eq : u = t
        · subst eq
          simp [Point.Joined] at joined
        · rw [Function.update_of_ne eq] at joined
          exact sound.none_counted count (sound.counted_of_joined (by simp [pre, Point.InSection]) free eq joined)
      | some u =>
        rw [and_iff_left (Option.some_ne_none u)]
        apply forall_update (P := fun u point => point.Writes ↔ (run.point u).Writes) (fun _ _ => .rfl)
        simp [pre, Point.Writes]
    · have mine : claims run.point (some t) := by simp [claims, pre, Point.Writes]
      have has : some t ∉ (run.globalLock.map (claimOf run.point)).waiters := by
        intro waits
        obtain ⟨u, inQueue, isMine⟩ := mem_map.mp waits
        unfold claimOf at isMine
        split at isMine
        · cases isMine
          exact free (.inr inQueue)
        · exact nomatch isMine
      refine (sound.global.release mine has).congr fun claim => ?_
      cases claim with
      | none =>
        rw [and_iff_left (Option.some_ne_none t).symm]
        exact joins_same (by simp [pre, Point.Joined])
      | some u =>
        apply forall_update (P := fun u point => point.Writes ↔ (run.point u).Writes ∧ some u ≠ some t)
        · grind
        · exact iff_of_false id fun both => both.2 rfl
  refine sound.moved free (reader_kept sound facts.1) (fun _ old => .inl old) (counted_kept sound facts.2) (.inl rfl) global
    (fun _ waits => .inl (Semaphore.mem_release waits)) ?_ ?_ ?_
  all_goals rcases h with ⟨_, rfl⟩ | ⟨_, rfl⟩ <;> simp

theorem Sound.statement (ran : run.toRwLock.statement t (run.point t) = some (lock, behind)) :
    RwRun.Sound ⟨lock, update run.point t behind⟩ := by
  cases h : run.point t <;> rw [h] at ran <;> simp only [RwLock.statement, Option.some.injEq, Prod.mk.injEq, reduceCtorEq] at ran
  all_goals obtain ⟨rfl, rfl⟩ := ran
  case enterRead =>
    exact sound.acquireReader free (.inl ⟨h, rfl⟩)
  case loadEnter =>
    refine sound.goTo free ?_ ?_ ?_ (joins_same ?_) ?_ ?_ ?_ <;> simp [h, Point.InSection, Point.Counted, Point.Writes, Point.Joined]
  case storeEnter count =>
    exact sound.increment free h
  case testEnter =>
    by_cases one : run.readerCount = 1
    · rw [if_pos one]
      refine sound.goTo free ?_ ?_ ?_ (joins_same ?_) ?_ (fun _ => one) ?_ <;>
        simp [h, Point.InSection, Point.Counted, Point.Writes, Point.Joined]
    · rw [if_neg one]
      -- a reader pre this one has joined
      obtain ⟨u, ne, cnt⟩ := sound.another_counted (t := t) one (by simp [h, Point.Counted])
      have joined := sound.joined (by simp [h, Point.InSection]) free ne cnt
      refine sound.goTo free ?_ ?_ ?_ (joins_of (.inr ⟨u, ne, joined⟩) (.inl trivial)) ?_ ?_ ?_ <;>
        simp [h, Point.InSection, Point.Counted, Point.Writes]
  case lockGlobal =>
    exact sound.acquireGlobal free (.inl ⟨h, rfl⟩)
  case unlockEnter =>
    exact sound.releaseReader free (.inl ⟨h, rfl⟩)
  case leaveRead =>
    exact sound.acquireReader free (.inr ⟨h, rfl⟩)
  case loadLeave =>
    refine sound.goTo free ?_ ?_ ?_ (joins_same ?_) ?_ ?_ ?_ <;> simp [h, Point.InSection, Point.Counted, Point.Writes, Point.Joined]
  case storeLeave count =>
    exact sound.decrement free h
  case testLeave =>
    by_cases none : run.readerCount = 0
    · rw [if_pos none]
      refine sound.goTo free ?_ ?_ ?_ (joins_same ?_) ?_ ?_ (fun _ => none) <;>
        simp [h, Point.InSection, Point.Counted, Point.Writes, Point.Joined]
    · rw [if_neg none]
      -- a reader that stays has joined
      obtain ⟨u, cnt⟩ := sound.some_counted none
      have ne : u ≠ t := by
        rintro rfl
        simp [h, Point.Counted] at cnt
      have joined := sound.joined (by simp [h, Point.InSection]) free ne cnt
      refine sound.goTo free ?_ ?_ ?_ (joins_of (.inr ⟨u, ne, joined⟩) (.inr ⟨u, ne, joined⟩)) ?_ ?_ ?_ <;>
        simp [h, Point.InSection, Point.Counted, Point.Writes]
  case unlockGlobal =>
    exact sound.releaseGlobal free (.inl ⟨h, rfl⟩)
  case unlockLeave =>
    exact sound.releaseReader free (.inr ⟨h, rfl⟩)
  case enterWrite =>
    exact sound.acquireGlobal free (.inr ⟨h, rfl⟩)
  case leaveWrite =>
    exact sound.releaseGlobal free (.inr ⟨h, rfl⟩)

end

theorem Sound.step {after : RwRun Task} {op : Task × RwCall} (sound : run.Sound) (hs : run.step op = some after) : after.Sound := by
  obtain ⟨t, call⟩ := op
  unfold RwRun.step at hs
  by_cases blocked : run.Blocked t
  · rw [if_pos blocked] at hs
    exact nomatch hs
  · rw [if_neg blocked] at hs
    have calls : ∀ behind, (behind.InSection ↔ (run.point t).InSection) ∧ (behind.Counted ↔ (run.point t).Counted) ∧
        (behind.Writes ↔ (run.point t).Writes) ∧ (behind.Joined ↔ (run.point t).Joined) →
        (behind = .enterRead ∨ behind = .enterWrite ∨ behind = .finished ∨ behind = .leaveRead ∨ behind = .leaveWrite) →
        (run.goTo t behind).Sound := by
      rintro behind ⟨sections, counts, writes, joins⟩ isCall
      refine sound.goTo blocked sections counts writes (joins_same joins) ?_ ?_ ?_ <;>
        rcases isCall with rfl | rfl | rfl | rfl | rfl <;> simp
    split at hs
    · rename_i h
      cases hs
      exact calls .enterRead (by simp [h, Point.InSection, Point.Counted, Point.Writes, Point.Joined]) (by simp)
    · rename_i h
      cases hs
      exact calls .enterWrite (by simp [h, Point.InSection, Point.Counted, Point.Writes, Point.Joined]) (by simp)
    · rename_i h
      cases hs
      exact calls .finished (by simp [h, Point.InSection, Point.Counted, Point.Writes, Point.Joined]) (by simp)
    · rename_i h
      cases hs
      exact calls .leaveRead (by simp [h, Point.InSection, Point.Counted, Point.Writes, Point.Joined]) (by simp)
    · rename_i h
      cases hs
      exact calls .leaveWrite (by simp [h, Point.InSection, Point.Counted, Point.Writes, Point.Joined]) (by simp)
    · obtain ⟨⟨lock, behind⟩, ran, rfl⟩ := Option.map_eq_some_iff.mp hs
      exact sound.statement blocked ran
    · exact nomatch hs

/-- A writer that has come back from `AcquireWrite`. -/
def WritesInside (run : RwRun Task) (t : Task) : Prop := run.point t = .writing ∧ ¬ run.Blocked t

/-- No task is between the start and the end of one of the four functions. -/
def Quiet (run : RwRun Task) : Prop :=
  ∀ t, run.point t = .outside ∨ run.point t = .finished ∨ run.point t = .reading ∨ run.WritesInside t

omit [DecidableEq Task] in
theorem Sound.writer_alone (sound : run.Sound) (hin : run.WritesInside t) {claim : Option Task} (claims : claims run.point claim)
    (has : claim ∉ (run.globalLock.map (claimOf run.point)).waiters) : claim = some t := by
  obtain ⟨h, free⟩ := hin
  apply sound.global.alone claim (some t) claims (by simp [RwRun.claims, h, Point.Writes]) has
  intro waits
  obtain ⟨u, inQueue, isMine⟩ := mem_map.mp waits
  unfold claimOf at isMine
  split at isMine
  · cases isMine
    exact free (.inr inQueue)
  · exact nomatch isMine

omit [DecidableEq Task] in
theorem Sound.reading_has (sound : run.Sound) (h : run.point t = .reading) :
    none ∉ (run.globalLock.map (claimOf run.point)).waiters := by
  intro waits
  obtain ⟨u, inQueue, isNone⟩ := mem_map.mp waits
  rcases sound.globalWaits u inQueue with writes | ⟨enters, one⟩
  · simp [claimOf, writes] at isNone
  · have eq := sound.one_counted one (t := u) (u := t) (by simp [enters, Point.Counted]) (by simp [h, Point.Counted])
    rw [eq, enters] at h
    exact nomatch h

theorem Sound.someone_free (sound : run.Sound) (unfinished : run.point t ≠ .finished) :
    ∃ u, run.point u ≠ .finished ∧ ¬ run.Blocked u := by
  have waitsReader : ∀ u, u ∈ run.readerLock.waiters → run.point u = .loadEnter ∨ run.point u = .loadLeave := sound.readerWaits
  -- whoever has `ReaderLock` waits for `GlobalLock` only as the first reader
  have section_ : ∀ u, u ∈ run.readerLock.waiters → ∃ v, (run.point v).InSection ∧ v ∉ run.readerLock.waiters := by
    intro u waits
    exact sound.reader.served (sound.reader.held u (sound.reader.waiting u waits))
  have global : ∀ u, u ∈ run.globalLock.waiters → ∃ v, run.point v ≠ .finished ∧ ¬ run.Blocked v := by
    intro u waits
    have isClaim : claimOf run.point u ∈ (run.globalLock.map (claimOf run.point)).waiters := mem_map_of_mem waits
    obtain ⟨claim, claims, has⟩ := sound.global.served (sound.global.held _ (sound.global.waiting _ isClaim))
    cases claim with
    | some w =>
      refine ⟨w, fun done => by simp [RwRun.claims, done, Point.Writes] at claims, ?_⟩
      rintro (reader | writer)
      · rcases waitsReader w reader with h | h <;> simp [RwRun.claims, h, Point.Writes] at claims
      · rcases sound.globalWaits w writer with h | ⟨h, _⟩
        · exact has (mem_map.mpr ⟨w, writer, by simp [claimOf, h]⟩)
        · simp [RwRun.claims, h, Point.Writes] at claims
    | none =>
      obtain ⟨w, joined⟩ := claims
      have notFirst : ∀ v, v ∈ run.globalLock.waiters → run.point v = .writing := by
        intro v inQueue
        refine (sound.globalWaits v inQueue).resolve_right fun ⟨h, _⟩ => ?_
        exact has (mem_map.mpr ⟨v, inQueue, by simp [claimOf, h]⟩)
      by_cases reader : w ∈ run.readerLock.waiters
      · obtain ⟨v, inSection, hasReader⟩ := section_ w reader
        refine ⟨v, fun done => by simp [done, Point.InSection] at inSection, ?_⟩
        rintro (again | writer)
        · exact hasReader again
        · simp [notFirst v writer, Point.InSection] at inSection
      · refine ⟨w, fun done => by simp [done, Point.Joined] at joined, ?_⟩
        rintro (again | writer)
        · exact reader again
        · simp [notFirst w writer, Point.Joined] at joined
  by_cases free : run.Blocked t
  · rcases free with reader | writer
    · obtain ⟨v, inSection, hasReader⟩ := section_ t reader
      by_cases waits : v ∈ run.globalLock.waiters
      · exact global v waits
      · exact ⟨v, fun done => by simp [done, Point.InSection] at inSection, not_or.mpr ⟨hasReader, waits⟩⟩
    · exact global t writer
  · exact ⟨t, unfinished, free⟩

/-- What callers may rely on in a state. -/
structure Excludes (run : RwRun Task) : Prop where
  writer_reader : ∀ t u, run.WritesInside t → run.point u ≠ .reading
  writer_writer : ∀ t u, run.WritesInside t → run.WritesInside u → t = u
  count : run.Quiet → {t | run.point t = .reading}.Finite ∧ run.readerCount = {t | run.point t = .reading}.ncard
  held : run.Quiet → (run.globalLock.held = true ↔ ∃ t, run.point t = .reading ∨ run.WritesInside t)
  nonneg : 0 ≤ run.readerCount
  live : ∀ t, run.point t ≠ .finished → ∃ u, run.point u ≠ .finished ∧ ¬ run.Blocked u

theorem Sound.excludes (sound : run.Sound) : run.Excludes where
  writer_reader t u hin reads := by
    have claim : claims run.point none := ⟨u, by simp [reads, Point.Joined]⟩
    exact nomatch sound.writer_alone hin claim (sound.reading_has reads)
  writer_writer t u hin other := by
    have claim : claims run.point (some t) := by simp [claims, hin.1, Point.Writes]
    refine Option.some.inj (sound.writer_alone other claim fun waits => ?_)
    obtain ⟨v, inQueue, isMine⟩ := mem_map.mp waits
    unfold claimOf at isMine
    split at isMine
    · cases isMine
      exact hin.2 (.inr inQueue)
    · exact nomatch isMine
  count quiet := by
    obtain ⟨readers, members, count⟩ := sound.counted
    have eq : {t | run.point t = .reading} = (readers : Set Task) := by
      ext t
      rw [Finset.mem_coe, members t]
      rcases quiet t with h | h | h | ⟨h, _⟩ <;> simp [h, Point.Counted]
    rw [eq, Set.ncard_coe_finset]
    exact ⟨readers.finite_toSet, count⟩
  held quiet := by
    constructor
    · intro held
      obtain ⟨claim, claims, _⟩ := sound.global.served held
      cases claim with
      | some t =>
        rcases quiet t with h | h | h | hin
        · simp [RwRun.claims, h, Point.Writes] at claims
        · simp [RwRun.claims, h, Point.Writes] at claims
        · simp [RwRun.claims, h, Point.Writes] at claims
        · exact ⟨t, .inr hin⟩
      | none =>
        obtain ⟨t, joined⟩ := claims
        rcases quiet t with h | h | h | ⟨h, _⟩
        · simp [h, Point.Joined] at joined
        · simp [h, Point.Joined] at joined
        · exact ⟨t, .inl h⟩
        · simp [h, Point.Joined] at joined
    · rintro ⟨t, h | ⟨h, _⟩⟩
      · exact sound.global.held none ⟨t, by simp [h, Point.Joined]⟩
      · exact sound.global.held (some t) (by simp [claims, h, Point.Writes])
  nonneg := by
    obtain ⟨readers, _, count⟩ := sound.counted
    omega
  live _ unfinished := sound.someone_free unfinished

/-- States reached by any interleaving of tasks that start outside the lock. -/
def ReachedBy (point : Task → Point) : RwRun Task → Prop := Reaches step (fun _ _ => True) (initial point)

theorem reached_excludes {point : Task → Point} (idle : ∀ t, point t = .outside ∨ point t = .finished)
    (reached : ReachedBy point run) : run.Excludes := by
  have sound := Reaches.invariant reached Sound (initial_sound idle) fun _ _ _ sound _ hs => sound.step hs
  exact sound.excludes

/-- Task 0 reads, and task 1 waits to write. -/
theorem reached_excludes_two : ∃ run : RwRun Nat, run.globalLock.waiters = [1] ∧ run.Excludes := by
  have idle : ∀ t : Nat, (fun t => if t < 2 then Point.outside else .finished) t = .outside ∨
      (fun t => if t < 2 then Point.outside else .finished) t = .finished := by
    intro t
    by_cases low : t < 2 <;> simp [low]
  let ops : List (Nat × RwCall) := [(0, .acquireRead), (0, .goOn), (0, .goOn), (0, .goOn), (0, .goOn), (0, .goOn), (0, .goOn),
    (1, .acquireWrite), (1, .goOn)]
  have ran : (runAll step (fun _ _ => True) ops (initial fun t => if t < 2 then Point.outside else .finished)).isSome = true ∧
      ∀ run ∈ runAll step (fun _ _ => True) ops (initial fun t => if t < 2 then Point.outside else .finished),
        run.globalLock.waiters = [1] := by decide +kernel
  obtain ⟨run, hf⟩ := Option.isSome_iff_exists.mp ran.1
  exact ⟨run, ran.2 run hf, reached_excludes idle (Reaches.start.runAll hf)⟩

end RwRun

end RosKernel.Tasking
