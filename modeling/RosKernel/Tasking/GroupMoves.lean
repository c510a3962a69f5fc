import RosKernel.Tasking.GroupRuns

/-! What a failed move between process groups leaves behind. -/

set_option autoImplicit false

namespace RosKernel.Tasking

open Library Option

namespace Kernel

/-- The pointer of the one task leads to the other. -/
def LinksTo (kernel : Kernel) (t next : TaskId) : Prop := kernel.groupNext t = some next

/-- No pointer leads to the target from the head of its group on, and none leads on from it. -/
def Detached (kernel : Kernel) (target : TaskId) : Prop :=
  ∀ head, kernel.getTaskPGID (kernel.task target).pgid = some head →
    kernel.groupNext target = none ∧ ¬Relation.TransGen kernel.LinksTo head target

/-- The call has no target, may not move it, need not take it out of a group, or finds it detached. -/
def NothingToUnlink (kernel : Kernel) (pid pgid : Nat) : Prop :=
  ∀ target current, kernel.setPGIDTarget pid = some target → kernel.getCurrentTaskPtr = some current →
    (target = current ∨ (kernel.task target).ppid = (kernel.task current).pid) →
    (kernel.task target).pgid = 0 ∨
    (kernel.task target).pgid = (if pgid = 0 then (kernel.task target).pid else pgid) ∨ kernel.Detached target

/-- Every task is in the group that it was in, and is linked as it was. -/
def GroupsUnchanged (kernel after : Kernel) : Prop :=
  ∀ u, (after.task u).pgid = (kernel.task u).pgid ∧ (after.task u).pgidTaskPtr = (kernel.task u).pgidTaskPtr

section

variable {kernel after : Kernel} {t head prev found : TaskId} {rounds : Nat}

theorem groupPrev_reaches (searched : kernel.groupPrev head t rounds prev = some (some found))
    (link : kernel.groupNext found = some t) (start : Relation.ReflTransGen kernel.LinksTo head prev) :
    Relation.TransGen kernel.LinksTo head t := by
  induction rounds generalizing prev with
  | zero => exact nomatch searched
  | succ rounds ih =>
    unfold groupPrev at searched
    by_cases h : (kernel.task prev).pgidTaskPtr = some t
    · exact .tail' start h
    rw [if_neg h] at searched
    cases next : (kernel.task prev).pgidTaskPtr with
    | none =>
      rw [next] at searched
      cases searched
    | some snd =>
      rw [next] at searched
      dsimp only at searched
      split at searched
      case isTrue circle =>
        obtain rfl : head = found := some.inj (some.inj searched)
        exact .single link
      case isFalse => exact ih searched (start.tail next)

theorem groupPrev_misses {res : Option TaskId} {seen : TaskId → Prop}
    (searched : kernel.groupPrev head t rounds prev = some res)
    (missed : ∀ found, res = some found → kernel.groupNext found ≠ some t) (start : head = prev ∨ seen head)
    (closed : ∀ u, seen u → kernel.groupNext u ≠ some t ∧ ∀ v, kernel.groupNext u = some v → seen v ∨ v = prev) :
    ¬Relation.TransGen kernel.LinksTo head t := by
  induction rounds generalizing prev seen with
  | zero => exact nomatch searched
  | succ rounds ih =>
    unfold groupPrev at searched
    have elsewhere : (kernel.task prev).pgidTaskPtr ≠ some t := by
      intro h
      rw [if_pos h] at searched
      exact missed prev (some.inj searched).symm h
    rw [if_neg elsewhere] at searched
    -- all that has been seen so far, with the task at which the search is
    have within (ends : ∀ v, kernel.groupNext prev = some v → seen v ∨ v = prev) :
        ¬Relation.TransGen kernel.LinksTo head t := by
      intro hr
      obtain ⟨last, toLast, link⟩ := Relation.TransGen.tail'_iff.mp hr
      have hin : seen last ∨ last = prev := by
        clear link
        induction toLast with
        | refl => exact start.symm
        | tail _ step ih =>
          rcases ih with old | rfl
          · exact (closed _ old).2 _ step
          · exact ends _ step
      rcases hin with old | rfl
      · exact (closed last old).1 link
      · exact elsewhere link
    cases next : (kernel.task prev).pgidTaskPtr with
    | none => exact within fun v link => by cases next.symm.trans link
    | some snd =>
      rw [next] at searched
      dsimp only at searched
      split at searched
      case isTrue circle =>
        refine within fun v link => ?_
        obtain rfl : snd = v := some.inj (next.symm.trans link)
        rw [circle]
        exact start.symm
      case isFalse =>
        refine @ih snd (fun u => seen u ∨ u = prev) searched (.inr start.symm) fun u old => ?_
        rcases old with old | rfl
        · grind
        · exact ⟨elsewhere, fun v link => .inr (some.inj (link.symm.trans next))⟩

theorem unlinkFromProcGrp_unchanged_iff (grouped : (kernel.task t).pgid ≠ 0)
    (done : kernel.unlinkFromProcGrp t = some after) : kernel.GroupsUnchanged after ↔ kernel.Detached t := by
  have cuts : kernel.GroupsUnchanged (kernel.modify t (Task.linkTo · none)) ↔ kernel.groupNext t = none := by
    constructor
    · intro unchanged
      have mine := (unchanged t).2
      rw [task_modify, if_pos rfl] at mine
      exact mine.symm
    · intro alone u
      rw [task_modify]
      split
      case isTrue eq =>
        subst eq
        exact ⟨rfl, alone.symm⟩
      case isFalse => exact ⟨rfl, rfl⟩
  unfold unlinkFromProcGrp at done
  rw [if_neg grouped] at done
  unfold Detached
  cases isHead : kernel.getTaskPGID (kernel.task t).pgid with
  | none =>
    rw [isHead] at done
    cases done
    exact iff_of_true (fun _ => ⟨rfl, rfl⟩) fun _ none => nomatch none
  | some head =>
    rw [isHead] at done
    dsimp only at done
    have only : (∀ other, some head = some other → kernel.groupNext t = none ∧
        ¬Relation.TransGen kernel.LinksTo other t) ↔ kernel.groupNext t = none ∧ ¬Relation.TransGen kernel.LinksTo head t := by
      constructor
      · exact fun each => each head rfl
      · simp
    rw [only]
    by_cases leads : head = t
    · rw [if_pos leads] at done
      cases done
      rw [cuts]
      refine ⟨fun alone => ⟨alone, fun hr => ?_⟩, And.left⟩
      obtain ⟨next, link, _⟩ := Relation.TransGen.head'_iff.mp hr
      subst leads
      exact nomatch alone.symm.trans link
    rw [if_neg leads] at done
    obtain ⟨res, searched, isAfter⟩ := map_eq_some_iff.mp done
    by_cases stops : ∃ prev, res = some prev ∧ kernel.groupNext prev = some t
    · obtain ⟨prev, rfl, link⟩ := stops
      have bypass : after = (kernel.modify prev (Task.linkTo · (kernel.task t).pgidTaskPtr)).modify t (Task.linkTo · none) :=
        isAfter.symm.trans (if_pos link)
      refine iff_of_false (fun unchanged => ?_) fun detached => detached.2 (groupPrev_reaches searched link .refl)
      have mine := (unchanged t).2
      have pre := (unchanged prev).2
      rw [bypass, task_modify, if_pos rfl] at mine
      have alone : (kernel.task t).pgidTaskPtr = none := mine.symm
      have dist : prev ≠ t := by
        rintro rfl
        exact nomatch alone.symm.trans link
      rw [bypass, task_modify, if_neg dist, task_modify, if_pos rfl] at pre
      exact nomatch alone.symm.trans (pre.trans link)
    · have cut : after = kernel.modify t (Task.linkTo · none) := by
        cases res with
        | none => exact isAfter.symm
        | some prev => exact isAfter.symm.trans (if_neg fun link => stops ⟨prev, rfl, link⟩)
      have missed : ¬Relation.TransGen kernel.LinksTo head t :=
        @groupPrev_misses kernel t head head kernel.fuel res (fun _ => False) searched
          (fun found isFound link => stops ⟨found, isFound, link⟩) (.inl rfl) fun _ never => never.elim
      rw [cut, cuts]
      exact ⟨fun alone => ⟨alone, missed⟩, And.left⟩

/-- A move that fails has left the groups as they were exactly if there was nothing to unlink. -/
theorem sysSetPGID_atomic_iff {pid pgid rax : Nat} (done : kernel.sysSetPGID pid pgid = some (rax, after))
    (failed : 2 ^ 63 ≤ rax) : kernel.GroupsUnchanged after ↔ kernel.NothingToUnlink pid pgid := by
  have unmoved : kernel.GroupsUnchanged kernel := fun _ => ⟨rfl, rfl⟩
  unfold sysSetPGID at done
  unfold NothingToUnlink
  cases isTarget : kernel.setPGIDTarget pid with
  | none =>
    rw [isTarget] at done
    obtain ⟨_, rfl⟩ := Prod.mk.inj (some.inj done)
    exact iff_of_true unmoved fun _ _ none => nomatch none
  | some target =>
    rw [isTarget] at done
    obtain ⟨cur, runs, done⟩ := bind_eq_some_iff.mp done
    by_cases denied : target ≠ cur ∧ (kernel.task target).ppid ≠ (kernel.task cur).pid
    · rw [if_pos denied] at done
      obtain ⟨_, rfl⟩ := Prod.mk.inj (some.inj done)
      refine iff_of_true unmoved ?_
      rintro other caller eq again (mine | child)
      · grind
      · grind
    rw [if_neg denied] at done
    obtain ⟨wanted, isWanted⟩ : ∃ wanted, wanted = if pgid = 0 then (kernel.task target).pid else pgid := ⟨_, rfl⟩
    rw [← isWanted] at done
    obtain ⟨left, leaves, enters⟩ := map_eq_some_iff.mp done
    -- the snd half writes nothing when it fails
    have eq : after = left := by
      unfold enterGroup at enters
      split at enters
      · grind
      split at enters
      · exact (Prod.mk.inj enters).2.symm
      split at enters
      · exact (Prod.mk.inj enters).2.symm
      · obtain ⟨rfl, _⟩ := Prod.mk.inj enters
        exact absurd failed (by decide)
    have allowed : target = cur ∨ (kernel.task target).ppid = (kernel.task cur).pid := by
      by_cases mine : target = cur
      · exact .inl mine
      · grind
    have only : (∀ other caller, some target = some other → kernel.getCurrentTaskPtr = some caller →
        (other = caller ∨ (kernel.task other).ppid = (kernel.task caller).pid) → (kernel.task other).pgid = 0 ∨
        (kernel.task other).pgid = (if pgid = 0 then (kernel.task other).pid else pgid) ∨ kernel.Detached other) ↔
        (kernel.task target).pgid = 0 ∨ (kernel.task target).pgid = wanted ∨ kernel.Detached target := by
      rw [isWanted]
      constructor
      · exact fun each => each target cur rfl runs allowed
      · grind
    rw [only, eq]
    unfold leaveGroup at leaves
    by_cases moves : (kernel.task target).pgid ≠ 0 ∧ (kernel.task target).pgid ≠ wanted
    · rw [if_pos moves] at leaves
      rw [unlinkFromProcGrp_unchanged_iff moves.1 leaves]
      exact ⟨fun detached => .inr (.inr detached), fun one => (one.resolve_left moves.1).resolve_left moves.2⟩
    · rw [if_neg moves] at leaves
      cases leaves
      refine iff_of_true unmoved ?_
      by_cases zero : (kernel.task target).pgid = 0
      · exact .inl zero
      · omega

/-- A task outside all groups asks for a group that nobody leads. -/
theorem alone_task_moves_nowhere : ∃ (kernel : Kernel) (rax : Nat) (after : Kernel), kernel.sysSetPGID 0 99 = some (rax, after) ∧ 2 ^ 63 ≤ rax ∧
    (kernel.GroupsUnchanged after ↔ kernel.NothingToUnlink 0 99) := by
  have ran : ((powerOn 1000 ⟨0, 0, 0⟩).createUserTask 0 0 0).any (fun kernel =>
      ((kernel.runAs 0).sysSetPGID 0 99).any fun res => decide (2 ^ 63 ≤ res.1)) = true := by
    decide +kernel
  obtain ⟨kernel, _, failed⟩ := (any_eq_true ..).mp ran
  obtain ⟨⟨rax, after⟩, done, negative⟩ := (any_eq_true ..).mp failed
  exact ⟨kernel.runAs 0, rax, after, done, of_decide_eq_true negative,
    sysSetPGID_atomic_iff done (of_decide_eq_true negative)⟩

/-- The child of `init` leaves the group it is in for one that there is not: the leader loses it. -/
theorem failed_move_unlinks : ∃ kernel after, Reaches performed Called (powerOn 1000 ⟨0, 0, 0⟩) kernel ∧
    (kernel.runAs 2).sysSetPGID 3 99 = some (noPid, after) ∧ ¬kernel.GroupsUnchanged after := by
  have ran : (runAll performed Called groupedRun (powerOn 1000 ⟨0, 0, 0⟩)).any (fun kernel =>
      ((kernel.runAs 2).sysSetPGID 3 99).any fun res => decide (res.1 = noPid ∧
        kernel.groupNext 2 = some 3 ∧ res.2.groupNext 2 = none)) = true := by
    decide +kernel
  obtain ⟨kernel, done, moved⟩ := (any_eq_true ..).mp ran
  obtain ⟨⟨rax, after⟩, called, facts⟩ := (any_eq_true ..).mp moved
  obtain ⟨isError, linked, unlinked⟩ := of_decide_eq_true facts
  cases isError
  refine ⟨kernel, after, Reaches.start.runAll done, called, fun unchanged => ?_⟩
  exact nomatch unlinked.symm.trans ((unchanged 2).2.trans linked)

end

end Kernel

end RosKernel.Tasking
