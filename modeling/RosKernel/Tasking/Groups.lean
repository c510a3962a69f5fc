import RosKernel.Tasking.ProcessRuns

/-! The list that hangs off a group's leader against the PGID fields.

A call edits at most one list. The lists of the other groups are kept because a member of one is
never a member of another.
-/

set_option autoImplicit false

namespace RosKernel.Tasking

open Library List Option

namespace Kernel

section

variable (kernel : Kernel)
include kernel

def groupNext (t : TaskId) : Option TaskId := (kernel.task t).pgidTaskPtr

def Live (t : TaskId) : Prop := ∃ slot, kernel.taskArray slot = some t

def InGroup (pgid : Nat) (t : TaskId) : Prop := kernel.Live t ∧ (kernel.task t).pgid = pgid

/-- The task leads the group of its own pid. -/
def Leads (t : TaskId) : Prop := kernel.Live t ∧ (kernel.task t).pgid = (kernel.task t).pid

def GroupsExact : Prop := ∀ leader, kernel.Leads leader →
  Visits kernel.groupNext (some leader) (kernel.InGroup (kernel.task leader).pid)

/-- The lists of the leaders other than `t` hold the members of their groups other than `t`. -/
def ExactBut (t : TaskId) : Prop := ∀ leader, kernel.Leads leader → leader ≠ t →
  Visits kernel.groupNext (some leader) fun other => kernel.InGroup (kernel.task leader).pid other ∧ other ≠ t

/-- Group 0 is no group: only the idle task is in it. -/
def IdleAlone : Prop :=
  ∀ slot t, kernel.taskArray slot = some t → (kernel.task t).pgid = pidIdle → slot = pidIdle

end

section

variable {kernel after : Kernel} {t leader : TaskId} {pgid : Nat}

theorem Numbered.live (numbered : kernel.Numbered) (live : kernel.Live t) :
    kernel.taskArray (kernel.task t).pid = some t := by
  obtain ⟨slot, held⟩ := live
  rw [numbered.pid slot t held]
  exact held

theorem Numbered.live_lt (numbered : kernel.Numbered) (live : kernel.Live t) : t < kernel.nextTask :=
  numbered.created _ t (numbered.live live)

theorem live_of_current (runs : kernel.getCurrentTaskPtr = some t) : kernel.Live t := by
  unfold getCurrentTaskPtr at runs
  split at runs
  · exact ⟨_, runs⟩
  · exact nomatch runs

theorem Numbered.leader_unique (numbered : kernel.Numbered) {other : TaskId} (leads : kernel.Leads leader)
    (also : kernel.Leads other) (eq : (kernel.task leader).pid = (kernel.task other).pid) : leader = other := by
  have held := numbered.live leads.1
  rw [eq] at held
  exact some.inj (held.symm.trans (numbered.live also.1))

/-- What the lists are made of is as before. -/
structure SameGroups (kernel after : Kernel) : Prop where
  slots : after.taskArray = kernel.taskArray
  pid : ∀ t, kernel.Live t → (after.task t).pid = (kernel.task t).pid
  pgid : ∀ t, kernel.Live t → (after.task t).pgid = (kernel.task t).pgid
  next : ∀ t, kernel.Live t → after.groupNext t = kernel.groupNext t

section

variable (eq : kernel.SameGroups after)
include eq

theorem SameGroups.live : after.Live t ↔ kernel.Live t := by
  unfold Live
  rw [eq.slots]

theorem SameGroups.inGroup : after.InGroup pgid t ↔ kernel.InGroup pgid t := by
  unfold InGroup
  rw [eq.live]
  exact and_congr_right fun live => by rw [eq.pgid t live]

theorem SameGroups.exact (exact : kernel.GroupsExact) : after.GroupsExact := by
  intro leader leads
  have live := eq.live.mp leads.1
  have pre : kernel.Leads leader := ⟨live, by rw [← eq.pgid leader live, leads.2, eq.pid leader live]⟩
  refine (exact leader pre).congr (fun t mem => eq.next t mem.1) fun t => ?_
  rw [eq.pid leader live]
  exact eq.inGroup

theorem SameGroups.idleAlone (alone : kernel.IdleAlone) : after.IdleAlone := by
  intro slot t held inIdle
  rw [eq.slots] at held
  rw [eq.pgid t ⟨slot, held⟩] at inIdle
  exact alone slot t held inIdle

end

end

section

variable {kernel after : Kernel} {slot parent : Nat}

theorem Admits.live (admits : kernel.Admits after slot parent) {t : TaskId} :
    after.Live t ↔ kernel.Live t ∨ t = kernel.nextTask := by
  constructor
  · rintro ⟨other, held⟩
    rcases admits.cases held with ⟨_, isNew⟩ | ⟨_, pre⟩
    · exact .inr isNew
    · exact .inl ⟨other, pre⟩
  · rintro (⟨other, held⟩ | rfl)
    · have dist : other ≠ slot := fun eq => nomatch (eq ▸ held).symm.trans admits.free
      exact ⟨other, by rw [admits.slots, Function.update_of_ne dist, held]⟩
    · exact ⟨slot, by rw [admits.slots, Function.update_self]⟩

variable (numbered : kernel.Numbered) (admits : kernel.Admits after slot parent)
  (pgids : ∀ t, kernel.Live t → (after.task t).pgid = (kernel.task t).pgid)

include numbered admits pgids

omit numbered in
theorem Admits.inGroup {t : TaskId} {pgid : Nat} :
    after.InGroup pgid t ↔ kernel.InGroup pgid t ∨ (t = kernel.nextTask ∧ (after.task kernel.nextTask).pgid = pgid) := by
  unfold InGroup
  rw [admits.live]
  constructor
  · rintro ⟨live | rfl, eq⟩
    · exact .inl ⟨live, pgids t live ▸ eq⟩
    · exact .inr ⟨rfl, eq⟩
  · rintro (⟨live, eq⟩ | ⟨rfl, eq⟩)
    · exact ⟨.inl live, (pgids t live).trans eq⟩
    · exact ⟨.inr rfl, eq⟩

theorem Admits.leads {t : TaskId} : after.Leads t ↔
    kernel.Leads t ∨ (t = kernel.nextTask ∧ (after.task kernel.nextTask).pgid = slot) := by
  have samePid : ∀ u, kernel.Live u → (after.task u).pid = (kernel.task u).pid := fun u live =>
    (admits.same u (numbered.live_lt live)).pid
  unfold Leads
  rw [admits.live]
  constructor
  · rintro ⟨live | rfl, own⟩
    · grind
    · exact .inr ⟨rfl, own.trans admits.pid⟩
  · rintro (⟨live, own⟩ | ⟨rfl, own⟩)
    · grind
    · exact ⟨.inr rfl, own.trans admits.pid.symm⟩

theorem Admits.exact_alone (exact : kernel.GroupsExact)
    (links : ∀ t, kernel.Live t → after.groupNext t = kernel.groupNext t)
    (noLeader : ∀ leader, kernel.Leads leader → (kernel.task leader).pid ≠ (after.task kernel.nextTask).pgid)
    (own : (after.task kernel.nextTask).pgid = slot →
      after.groupNext kernel.nextTask = none ∧ ∀ t, kernel.Live t → (kernel.task t).pgid ≠ slot) :
    after.GroupsExact := by
  intro leader leads
  rcases (admits.leads numbered pgids).mp leads with pre | ⟨rfl, leadsOwn⟩
  · rw [(admits.same leader (numbered.live_lt pre.1)).pid]
    refine (exact leader pre).congr (fun t mem => links t mem.1) fun t => ?_
    rw [admits.inGroup pgids]
    exact or_iff_left fun isNew => noLeader leader pre isNew.2.symm
  · obtain ⟨alone, noMember⟩ := own leadsOwn
    refine (Visits.single alone).congr (fun _ _ => rfl) fun t => ?_
    rw [admits.pid, admits.inGroup pgids]
    constructor
    · rintro (⟨live, mem⟩ | ⟨isNew, _⟩)
      · exact absurd mem (noMember t live)
      · exact isNew
    · exact fun isNew => .inr ⟨isNew, leadsOwn⟩

theorem Admits.exact_member (exact : kernel.GroupsExact) {head : TaskId} (headLeads : kernel.Leads head)
    (mem : (after.task kernel.nextTask).pgid = (kernel.task head).pid)
    (front : after.groupNext head = some kernel.nextTask) (link : after.groupNext kernel.nextTask = kernel.groupNext head)
    (links : ∀ t, kernel.Live t → t ≠ head → after.groupNext t = kernel.groupNext t) :
    after.GroupsExact := by
  have headSlot := numbered.live headLeads.1
  have notOwn : (after.task kernel.nextTask).pgid ≠ slot := fun own =>
    nomatch (mem.symm.trans own ▸ headSlot).symm.trans admits.free
  have absent : ¬kernel.Live kernel.nextTask := fun live => Nat.lt_irrefl _ (numbered.live_lt live)
  intro leader leads
  rcases (admits.leads numbered pgids).mp leads with pre | ⟨_, own⟩
  · rw [(admits.same leader (numbered.live_lt pre.1)).pid]
    have visits := exact leader pre
    by_cases isHead : leader = head
    · subst isHead
      refine (visits.insert (fun hin => absent hin.1) front link fun t hin dist =>
        links t hin.1 dist).congr (fun _ _ => rfl) fun t => ?_
      rw [admits.inGroup pgids]
      exact or_congr_right (and_iff_left mem)
    · refine visits.congr (fun t hin => links t hin.1 ?_) fun t => ?_
      · rintro rfl
        exact isHead (numbered.leader_unique pre headLeads (hin.2.symm.trans headLeads.2))
      · rw [admits.inGroup pgids]
        refine or_iff_left fun isNew => isHead ?_
        exact numbered.leader_unique pre headLeads (isNew.2.symm.trans mem)
  · exact absurd own notOwn

end

section

variable {kernel : Kernel} {slot : Nat} {child : TaskId}

theorem Numbered.exact_destroyed (numbered : kernel.Numbered) (exact : kernel.GroupsExact)
    (held : kernel.taskArray slot = some child)
    (noList : ∀ leader, kernel.Leads leader → (kernel.task leader).pid = (kernel.task child).pgid → leader = child) :
    GroupsExact { kernel with taskArray := Function.update kernel.taskArray slot none } := by
  have stillLive : ∀ t, Live { kernel with taskArray := Function.update kernel.taskArray slot none } t ↔
      kernel.Live t ∧ t ≠ child := by
    intro t
    constructor
    · rintro ⟨other, there⟩
      dsimp only at there
      rw [Function.update_apply] at there
      split at there
      case isTrue => exact nomatch there
      case isFalse dist =>
        exact ⟨⟨other, there⟩, fun eq => dist (numbered.injective there (eq ▸ held))⟩
    · rintro ⟨⟨other, there⟩, dist⟩
      have elsewhere : other ≠ slot := fun eq => dist (some.inj ((eq ▸ there).symm.trans held))
      exact ⟨other, (Function.update_of_ne elsewhere ..).trans there⟩
  intro leader leads
  obtain ⟨live, dist⟩ := (stillLive leader).mp leads.1
  have pre : kernel.Leads leader := ⟨live, leads.2⟩
  refine (exact leader pre).congr (fun _ _ => rfl) fun t => ?_
  unfold InGroup
  rw [stillLive]
  constructor
  · exact fun hin => ⟨hin.1.1, hin.2⟩
  · grind

end

section

variable {kernel after : Kernel} {t head prev : TaskId}

theorem groupPrev_spec {next : TaskId} {rest : List TaskId} {rounds : Nat} (chain : Chain kernel.groupNext (some next) (next :: rest))
    (nodup : (next :: rest).Nodup) (notHead : head ∉ rest) (ahead : t ∈ rest) (enough : rest.length ≤ rounds) :
    ∃ prev, kernel.groupPrev head t rounds next = some (some prev) ∧ prev ∈ next :: rest ∧ kernel.groupNext prev = some t := by
  induction rest generalizing next rounds with
  | nil => exact nomatch ahead
  | cons snd rest ih =>
    rw [length_cons] at enough
    obtain ⟨rounds, rfl⟩ : ∃ fewer, rounds = fewer + 1 := ⟨rounds - 1, by omega⟩
    have link : (kernel.task next).pgidTaskPtr = some snd := chain.2.head_eq
    unfold groupPrev
    rw [link]
    by_cases hf : snd = t
    · rw [if_pos (congrArg some hf)]
      exact ⟨next, rfl, .head _, link.trans (congrArg some hf)⟩
    · rw [if_neg fun eq => hf (some.inj eq)]
      dsimp only
      rw [if_neg fun eq : snd = head => notHead (eq ▸ .head _)]
      have tail : Chain kernel.groupNext (some snd) (snd :: rest) := link ▸ chain.2
      obtain ⟨prev, searched, mem, pre⟩ := ih tail (nodup_cons.mp nodup).2
        (fun hin => notHead (.tail _ hin))
        ((mem_cons.mp ahead).resolve_left fun eq => hf eq.symm)
        (Nat.le_of_succ_le_succ enough)
      exact ⟨prev, searched, .tail _ mem, pre⟩

theorem Visits.groupPrev {members : TaskId → Prop} (visits : Visits kernel.groupNext (some head) members)
    (created : ∀ u, members u → u < kernel.nextTask) (mem : members t) (dist : head ≠ t) :
    ∃ prev, kernel.groupPrev head t kernel.fuel head = some (some prev) ∧ members prev ∧ kernel.groupNext prev = some t := by
  obtain ⟨nodes, chain, nodup, exact⟩ := visits
  have within : nodes ⊆ range kernel.nextTask := fun u hin =>
    mem_range.mpr (created u ((exact u).mp hin))
  have bound := (List.Nodup.subperm nodup within).length_le
  rw [length_range] at bound
  cases nodes with
  | nil => exact nomatch chain
  | cons node rest =>
    obtain rfl : head = node := some.inj chain.1
    have enough : rest.length ≤ kernel.fuel := by
      simp only [length_cons, fuel] at bound ⊢
      omega
    obtain ⟨prev, searched, hin, link⟩ := groupPrev_spec chain nodup (nodup_cons.mp nodup).1
      ((mem_cons.mp ((exact t).mpr mem)).resolve_left fun eq => dist eq.symm) enough
    exact ⟨prev, searched, (exact prev).mp hin, link⟩

theorem getTaskPGID_of_leads (numbered : kernel.Numbered) (leads : kernel.Leads head) :
    kernel.getTaskPGID (kernel.task head).pid = some head := by
  unfold getTaskPGID
  rw [numbered.getTaskPID, numbered.live leads.1]
  exact if_pos leads.2

section

variable (grouped : (kernel.task t).pgid ≠ 0) (done : kernel.unlinkFromProcGrp t = some after)
include grouped done

theorem unlinkFromProcGrp_tables : (kernel.getTaskPGID (kernel.task t).pgid = none ∧ after = kernel) ∨
    after = kernel.modify t (Task.linkTo · none) ∨
    ∃ prev, kernel.groupNext prev = some t ∧
      after = (kernel.modify prev (Task.linkTo · (kernel.groupNext t))).modify t (Task.linkTo · none) := by
  unfold unlinkFromProcGrp at done
  rw [if_neg grouped] at done
  cases hf : kernel.getTaskPGID (kernel.task t).pgid with
  | none =>
    rw [hf] at done
    exact .inl ⟨rfl, (some.inj done).symm⟩
  | some head =>
    rw [hf] at done
    dsimp only at done
    split at done
    · exact .inr (.inl (some.inj done).symm)
    obtain ⟨prev, _, rfl⟩ := Option.map_eq_some_iff.mp done
    cases prev with
    | none => exact .inr (.inl rfl)
    | some prev =>
      dsimp only
      split
      case isTrue link => exact .inr (.inr ⟨prev, link, rfl⟩)
      case isFalse => exact .inr (.inl rfl)

theorem unlinkFromProcGrp_member (hf : kernel.getTaskPGID (kernel.task t).pgid = some head) (dist : head ≠ t)
    (searched : kernel.groupPrev head t kernel.fuel head = some (some prev)) (link : kernel.groupNext prev = some t) :
    after = (kernel.modify prev (Task.linkTo · (kernel.groupNext t))).modify t (Task.linkTo · none) := by
  unfold unlinkFromProcGrp at done
  rw [if_neg grouped, hf] at done
  dsimp only at done
  rw [if_neg dist, searched, Option.map_some] at done
  exact (some.inj done).symm.trans (if_pos link)

end

/-- Only pointers are written. -/
structure Relinks (kernel after : Kernel) : Prop where
  slots : after.taskArray = kernel.taskArray
  pid : ∀ t, (after.task t).pid = (kernel.task t).pid
  pgid : ∀ t, (after.task t).pgid = (kernel.task t).pgid

theorem Relinks.linkTo (kernel : Kernel) (t : TaskId) (next : Option TaskId) :
    kernel.Relinks (kernel.modify t (Task.linkTo · next)) := by
  refine ⟨rfl, fun u => ?_, fun u => ?_⟩
  all_goals
    rw [task_modify]
    split
    case isTrue eq => rw [eq]; rfl
    case isFalse => rfl

theorem Relinks.trans {mid : Kernel} (first : kernel.Relinks mid) (snd : mid.Relinks after) :
    kernel.Relinks after :=
  ⟨snd.slots.trans first.slots, fun t => (snd.pid t).trans (first.pid t), fun t => (snd.pgid t).trans (first.pgid t)⟩

theorem unlinkFromProcGrp_relinks (grouped : (kernel.task t).pgid ≠ 0) (done : kernel.unlinkFromProcGrp t = some after) :
    kernel.Relinks after := by
  rcases unlinkFromProcGrp_tables grouped done with ⟨_, rfl⟩ | rfl | ⟨prev, _, rfl⟩
  · exact ⟨rfl, fun _ => rfl, fun _ => rfl⟩
  · exact Relinks.linkTo ..
  · exact (Relinks.linkTo ..).trans (Relinks.linkTo ..)

@[simp] theorem groupNext_linkTo (t u : TaskId) (next : Option TaskId) :
    (kernel.modify t (Task.linkTo · next)).groupNext u = if u = t then next else kernel.groupNext u := by
  unfold groupNext
  rw [task_modify]
  split <;> rfl

theorem ExactBut.unlinkFromProcGrp (numbered : kernel.Numbered) (exact : kernel.GroupsExact) (live : kernel.Live t)
    (grouped : (kernel.task t).pgid ≠ 0) (done : kernel.unlinkFromProcGrp t = some after) : after.ExactBut t := by
  have relinks := unlinkFromProcGrp_relinks grouped done
  intro leader leads dist
  have pre : kernel.Leads leader := by
    obtain ⟨⟨slot, held⟩, own⟩ := leads
    exact ⟨⟨slot, relinks.slots ▸ held⟩, by rw [← relinks.pgid, own, relinks.pid]⟩
  have visits := exact leader pre
  have sameGroup : ∀ u, after.InGroup (after.task leader).pid u ↔ kernel.InGroup (kernel.task leader).pid u := by
    intro u
    unfold InGroup Live
    rw [relinks.slots, relinks.pid, relinks.pgid]
  simp only [sameGroup]
  by_cases hin : (kernel.task t).pgid = (kernel.task leader).pid
  · have hf : kernel.getTaskPGID (kernel.task t).pgid = some leader := hin ▸ getTaskPGID_of_leads numbered pre
    obtain ⟨prev, searched, mem, link⟩ := Visits.groupPrev visits (fun u mem => numbered.live_lt mem.1)
      ⟨live, hin⟩ dist
    rw [unlinkFromProcGrp_member grouped done hf dist searched link]
    have notLast : prev ≠ t := visits.next_ne mem link
    refine visits.remove mem link ?_ fun u _ notPrev notT => ?_
    · simp [notLast]
    · simp [notPrev, notT]
  · refine visits.congr (fun u mem => ?_) fun u => and_iff_left_of_imp fun mem eq => hin (eq ▸ mem.2)
    have notT : u ≠ t := fun eq => hin (eq ▸ mem.2)
    rcases unlinkFromProcGrp_tables grouped done with ⟨_, rfl⟩ | rfl | ⟨prev, link, rfl⟩
    · rfl
    · simp [notT]
    · have notPrev : u ≠ prev := fun eq => hin (visits.next_mem mem (eq ▸ link)).2
      simp [notT, notPrev]

end

section

variable {kernel : Kernel} {t leader : TaskId} {pgid : Nat} {next : Option TaskId}

@[simp] theorem pid_join (u : TaskId) :
    ((kernel.modify t (Task.join · pgid next)).task u).pid = (kernel.task u).pid := by
  rw [task_modify]
  split
  case isTrue eq => rw [eq]; rfl
  case isFalse => rfl

@[simp] theorem pgid_join (u : TaskId) :
    ((kernel.modify t (Task.join · pgid next)).task u).pgid = if u = t then pgid else (kernel.task u).pgid := by
  rw [task_modify]
  split <;> rfl

@[simp] theorem groupNext_join (u : TaskId) :
    (kernel.modify t (Task.join · pgid next)).groupNext u = if u = t then next else kernel.groupNext u := by
  unfold groupNext
  rw [task_modify]
  split <;> rfl

theorem ExactBut.lead (numbered : kernel.Numbered) (exact : kernel.ExactBut t) (live : kernel.Live t)
    (alone : ∀ u, kernel.InGroup (kernel.task t).pid u → u = t) :
    (kernel.modify t (Task.join · (kernel.task t).pid none)).GroupsExact := by
  intro leader leads
  rw [pid_join]
  by_cases eq : leader = t
  · subst eq
    refine (Visits.single (by simp)).congr (fun _ _ => rfl) fun u => ?_
    unfold InGroup
    rw [pgid_join]
    constructor
    · rintro ⟨isLive, mem⟩
      by_contra dist
      rw [if_neg dist] at mem
      exact dist (alone u ⟨isLive, mem⟩)
    · rintro rfl
      exact ⟨live, if_pos rfl⟩
  · have own := leads.2
    rw [pgid_join, pid_join, if_neg eq] at own
    have pre : kernel.Leads leader := ⟨leads.1, own⟩
    have otherPid : (kernel.task t).pid ≠ (kernel.task leader).pid := by
      intro samePid
      have held := numbered.live live
      rw [samePid] at held
      exact eq (some.inj ((numbered.live leads.1).symm.trans held))
    refine (exact leader pre eq).congr (fun u mem => by simp [mem.2]) fun u => ?_
    unfold InGroup
    rw [pgid_join]
    constructor
    · rintro ⟨isLive, mem⟩
      split at mem
      case isTrue => exact absurd mem otherPid
      case isFalse dist => exact ⟨⟨isLive, mem⟩, dist⟩
    · rintro ⟨⟨isLive, mem⟩, dist⟩
      exact ⟨isLive, (if_neg dist).trans mem⟩

@[simp] theorem pid_joinGroup (u : TaskId) : ((kernel.joinGroup t leader pgid).task u).pid = (kernel.task u).pid :=
  ((Relinks.linkTo _ leader (some t)).pid u).trans (pid_join u)

@[simp] theorem pgid_joinGroup (u : TaskId) :
    ((kernel.joinGroup t leader pgid).task u).pgid = if u = t then pgid else (kernel.task u).pgid :=
  ((Relinks.linkTo _ leader (some t)).pgid u).trans (pgid_join u)

@[simp] theorem groupNext_joinGroup (u : TaskId) : (kernel.joinGroup t leader pgid).groupNext u =
    if u = leader then some t else if u = t then kernel.groupNext leader else kernel.groupNext u := by
  unfold joinGroup
  rw [groupNext_linkTo, groupNext_join]
  rfl

theorem ExactBut.join (numbered : kernel.Numbered) (exact : kernel.ExactBut t) (live : kernel.Live t)
    (head : kernel.Leads leader) (dist : leader ≠ t) :
    (kernel.joinGroup t leader (kernel.task leader).pid).GroupsExact := by
  have otherPid : (kernel.task leader).pid ≠ (kernel.task t).pid := by
    intro samePid
    have held := numbered.live live
    rw [← samePid] at held
    exact dist (some.inj ((numbered.live head.1).symm.trans held))
  intro first leads
  have own := leads.2
  rw [pgid_joinGroup, pid_joinGroup] at own
  split at own
  case isTrue eq => exact absurd (eq ▸ own) otherPid
  case isFalse notT =>
    have pre : kernel.Leads first := ⟨leads.1, own⟩
    have visits := exact first pre notT
    have inGroup : ∀ u, (kernel.joinGroup t leader (kernel.task leader).pid).InGroup (kernel.task first).pid u ↔
        (kernel.InGroup (kernel.task first).pid u ∧ u ≠ t) ∨ (u = t ∧ first = leader) := by
      intro u
      unfold InGroup
      rw [pgid_joinGroup]
      by_cases isT : u = t
      · subst isT
        simp only [if_true, not_true_eq_false, and_false, false_or, true_and, ne_eq]
        constructor
        · exact fun mem => numbered.leader_unique pre head mem.2.symm
        · rintro rfl
          exact ⟨live, rfl⟩
      · simp only [isT, if_false, ne_eq, not_false_eq_true, and_true, false_and, or_false]
        exact .rfl
    rw [pid_joinGroup]
    by_cases eq : first = leader
    · subst eq
      refine (visits.insert (fun hin => hin.2 rfl) ?_ ?_ ?_).congr (fun _ _ => rfl) fun u => ?_
      · simp
      · simp [Ne.symm dist]
      · intro u hin notFirst
        simp [notFirst, hin.2]
      · simp [inGroup]
    · refine visits.congr (fun u mem => ?_) fun u => ?_
      · have notLeader : u ≠ leader := by
          rintro rfl
          exact eq (numbered.leader_unique pre head (mem.1.2.symm.trans head.2))
        simp [notLeader, mem.2]
      · simp [inGroup, eq]

end

end Kernel

end RosKernel.Tasking
