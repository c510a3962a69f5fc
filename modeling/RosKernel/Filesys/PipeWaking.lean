import RosKernel.Filesys.PipeSleep

/-! Nobody sleeps in vain at a pipe, in every run whose steps behave. -/

set_option autoImplicit false

namespace RosKernel.Filesys.PipeWorld

open Library List Option
open Function (update update_of_ne update_self)

section

variable {Id : Type} {world : PipeWorld Id} {id : Id} {user : PipeUser} {queue : PipeQueue}

theorem Kept.not_queued (kept : world.Kept) (awake : ∀ user, world.users id = some user → ∀ queue, user.phase ≠ .asleep queue) :
    id ∉ world.queue queue := by
  intro mem
  obtain ⟨own, eq, asleep⟩ := kept.queued queue id mem
  exact awake own eq queue asleep

theorem not_pending_of_free (free : world.lock = none) : ¬ world.WakePending queue := by
  rintro ⟨other, _, _, locked, _⟩
  exact nomatch free.symm.trans locked

theorem Kept.not_pending (kept : world.Kept) (isUser : world.users id = some user) (holding : user.phase = .holding) :
    ¬ world.WakePending queue := by
  rintro ⟨other, own, queues, locked, eq, waking, _⟩
  have mine := kept.held id user isUser (.inl holding)
  obtain rfl := some.inj (mine.symm.trans locked)
  obtain rfl := some.inj (isUser.symm.trans eq)
  exact nomatch holding.symm.trans waking

theorem Kept.queue_nil (kept : world.Kept) (quiet : ¬ world.WakePending queue) (satisfied : world.Satisfied queue) :
    world.queue queue = [] :=
  eq_nil_iff_forall_not_mem.mpr fun id mem => quiet (kept.sleepers queue satisfied id mem).2

theorem head_of_single (single : (world.queue queue).length ≤ 1) (mem : id ∈ world.queue queue) :
    (world.queue queue).head? = some id := by
  cases tasks : world.queue queue with
  | nil => exact nomatch tasks ▸ mem
  | cons first rest =>
    rw [tasks] at single mem
    have empty : rest = [] := eq_nil_of_length_eq_zero (by simpa using single)
    rw [empty] at mem
    rw [mem_singleton.mp mem]
    rfl

end

variable {Id : Type} [DecidableEq Id] {world after : PipeWorld Id} {id : Id} {user new : PipeUser} {queue : PipeQueue}

theorem Kept.moved {lock inodeLock : Option Id} {buf : PipeBuffer} {files : Nat → Option PipeEnd} (kept : world.Kept)
    (pre : ∀ user, world.users id = some user → ∀ queue, user.phase ≠ .asleep queue) (awake : ∀ queue, new.phase ≠ .asleep queue)
    (sleepers : ∀ queue, Satisfied { world with buf, files } queue → ∀ task ∈ world.queue queue,
      (world.queue queue).head? = some task ∧
        WakePending { world with users := update world.users id (some new), lock } queue)
    (mine : (new.phase = .holding ∨ ∃ queues, new.phase = .waking queues) → lock = some id)
    (others : ∀ other, other ≠ id → world.lock = some other → lock = some other)
    (inode : ∀ holder, holder ≠ id → inodeLock = some holder → world.inodeLock = some holder)
    (blocked : new.phase = .blocked → ∀ holder owner, inodeLock = some holder → world.users holder = some owner →
      ∀ queue, owner.phase ≠ .asleep queue)
    (closed : buf.isWriteClosed = true → NoWriters { world with files })
    (readable : new.phase = .blocked → new.kind = .read → PipeCall.allowed .read new.flags = true) :
    Kept { world with users := update world.users id (some new), lock, inodeLock, buf, files } := by
  have known : ∀ other user, update world.users id (some new) other = some user →
      other = id ∧ user = new ∨ other ≠ id ∧ world.users other = some user := by
    intro other user there
    by_cases h : other = id
    · grind
    · grind
  refine { sleepers := fun queue => ?_, inode := ?_, held := ?_, queued := fun queue task mem => ?_,
           nodup := fun queue => ?_, closed := closed, readable := ?_ }
  · intro satisfied task mem
    cases queue with
    | waiters => exact sleepers .waiters satisfied task mem
    | fullWaiters => exact sleepers .fullWaiters satisfied task mem
  · intro other wait holder owner isWaiting wants locked isOwner queue
    rcases known holder owner isOwner with ⟨_, rfl⟩ | ⟨ne, ownerBefore⟩
    · exact awake queue
    · rcases known other wait isWaiting with ⟨_, rfl⟩ | ⟨_, waitingBefore⟩
      · exact blocked wants holder owner locked ownerBefore queue
      · exact kept.inode other wait holder owner waitingBefore wants (inode holder ne locked) ownerBefore queue
  · intro other own isOwn busy
    rcases known other own isOwn with ⟨rfl, rfl⟩ | ⟨ne, ownBefore⟩
    · exact mine busy
    · exact others other ne (kept.held other own ownBefore busy)
  · have there : task ∈ world.queue queue := by cases queue <;> exact mem
    obtain ⟨own, isOwn, asleep⟩ := kept.queued queue task there
    have ne : task ≠ id := by
      rintro rfl
      exact pre own isOwn queue asleep
    exact ⟨own, (update_of_ne ne ..).trans isOwn, asleep⟩
  · cases queue with
    | waiters => exact kept.nodup .waiters
    | fullWaiters => exact kept.nodup .fullWaiters
  · intro other own isOwn wants reads
    rcases known other own isOwn with ⟨_, rfl⟩ | ⟨_, ownBefore⟩
    · exact readable wants reads
    · exact kept.readable other own ownBefore wants reads

theorem pending_moved (pending : world.WakePending queue)
    (notWaking : ∀ user, world.users id = some user → ∀ queues, user.phase ≠ .waking queues) :
    WakePending { world with users := update world.users id (some new) } queue := by
  obtain ⟨other, own, queues, locked, isOwn, waking, mem⟩ := pending
  have ne : other ≠ id := by
    rintro rfl
    exact notWaking own isOwn queues waking
  exact ⟨other, own, queues, locked, (update_of_ne ne ..).trans isOwn, waking, mem⟩

/-! ## Steps of one task -/

theorem Kept.called {inodeLock : Option Id} (kept : world.Kept)
    (pre : ∀ user, world.users id = some user → user.phase = .blocked ∨ ∃ res, user.phase = .returned res)
    (next : new.phase = .blocked ∨ new.phase = .entering ∨ ∃ res, new.phase = .returned res)
    (inode : ∀ holder, holder ≠ id → inodeLock = some holder → world.inodeLock = some holder)
    (blocked : new.phase = .blocked → ∀ holder owner, inodeLock = some holder → world.users holder = some owner →
      ∀ queue, owner.phase ≠ .asleep queue)
    (readable : new.phase = .blocked → new.kind = .read → PipeCall.allowed .read new.flags = true)
    {files : Nat → Option PipeEnd} (eq : NoWriters { world with files } ↔ world.NoWriters) :
    Kept { world with users := update world.users id (some new), inodeLock, files } := by
  refine kept.moved (fun own isOwn queue asleep => ?_) (fun queue asleep => ?_) (fun queue satisfied task mem => ?_)
    (fun busy => ?_) (fun _ _ locked => locked) inode blocked (fun closed => eq.mpr (kept.closed closed)) readable
  · grind
  · grind
  · have still : world.Satisfied queue := by
      cases queue with
      | waiters => exact satisfied.imp_right eq.mp
      | fullWaiters => exact satisfied
    obtain ⟨first, pending⟩ := kept.sleepers queue still task mem
    refine ⟨first, pending_moved pending fun own isOwn queues waking => ?_⟩
    rcases pre own isOwn with phase | ⟨_, phase⟩ <;> exact nomatch phase.symm.trans waking
  · grind

theorem Kept.acquired (kept : world.Kept) (isUser : world.users id = some user) (free : world.lock = none)
    (enters : user.phase = .entering) : Kept { world.setPhase id user .holding with lock := some id } := by
  refine kept.moved (fun own isOwn queue asleep => ?_) nofun (fun queue satisfied task mem => ?_) (fun _ => rfl)
    (fun _ _ locked => nomatch free.symm.trans locked) (fun _ _ eq => eq) nofun kept.closed nofun
  · grind
  · have empty := kept.queue_nil (not_pending_of_free free) (show world.Satisfied queue from satisfied)
    exact nomatch empty ▸ mem

/-- The holder of the lock goes on; whoever it satisfies is about to be woken. -/
theorem Kept.onward {lock inodeLock : Option Id} {buf : PipeBuffer} {files : Nat → Option PipeEnd} (kept : world.Kept)
    (isUser : world.users id = some user) (holding : user.phase = .holding)
    (awake : ∀ queue, new.phase ≠ .asleep queue) (notBlocked : new.phase ≠ .blocked)
    (sleepers : ∀ queue, Satisfied { world with buf, files } queue → world.Satisfied queue ∨
      (world.queue queue).length ≤ 1 ∧ lock = some id ∧ ∃ queues, new.phase = .waking queues ∧ queue ∈ queues)
    (mine : (new.phase = .holding ∨ ∃ queues, new.phase = .waking queues) → lock = some id)
    (inode : ∀ holder, holder ≠ id → inodeLock = some holder → world.inodeLock = some holder)
    (closed : buf.isWriteClosed = true → NoWriters { world with files }) :
    Kept { world with users := update world.users id (some new), lock, inodeLock, buf, files } := by
  have mineBefore := kept.held id user isUser (.inl holding)
  refine kept.moved (fun own isOwn queue asleep => ?_) awake (fun queue satisfied task mem => ?_) mine
    (fun other ne locked => ?_) inode (fun wants => absurd wants notBlocked) closed (fun wants => absurd wants notBlocked)
  · grind
  · rcases sleepers queue satisfied with still | ⟨single, locked, queues, waking, among⟩
    · have empty := kept.queue_nil (kept.not_pending isUser holding) still
      exact nomatch empty ▸ mem
    · exact ⟨head_of_single single mem, id, new, queues, locked, update_self .., waking, among⟩
  · grind

section

variable (kept : world.Kept) (isUser : world.users id = some user) (holding : user.phase = .holding)
include kept isUser holding

theorem Kept.left (res : Nat) : (world.leave id user res).Kept := by
  refine kept.onward isUser holding nofun nofun (fun _ satisfied => .inl satisfied) ?_ (fun holder _ locked => ?_) kept.closed
  · rintro (busy | ⟨_, busy⟩) <;> exact nomatch busy
  · split at locked
    · exact nomatch locked
    · exact locked

theorem Kept.transfer (few : user.count < user.size → user.mustWait world.buf = false → (world.queue user.others).length ≤ 1) :
    (world.transfer id user).Kept := by
  unfold PipeWorld.transfer
  split
  case isTrue => exact kept.left isUser holding _
  case isFalse more =>
  split
  case isTrue =>
    split
    case isTrue => exact kept.left isUser holding _
    case isFalse =>
      refine kept.onward isUser holding nofun nofun (fun _ satisfied => .inl satisfied) ?_ (fun _ _ locked => locked) kept.closed
      rintro (busy | ⟨_, busy⟩) <;> exact nomatch busy
  case isFalse goes =>
    have single := few (Nat.lt_of_not_le more) (Bool.eq_false_of_not_eq_true goes)
    refine kept.onward isUser holding nofun nofun (fun queue satisfied => ?_)
      (fun _ => kept.held id user isUser (.inl holding)) (fun _ _ locked => locked) ?_
    · -- Its own queue is empty, as it need not wait; the other one it wakes.
      by_cases own : queue = user.others
      · exact .inr ⟨own ▸ single, kept.held id user isUser (.inl holding), _, rfl, own ▸ .head _⟩
      · refine .inl ?_
        unfold PipeUser.mustWait at goes
        cases queue with
        | waiters =>
          have reads : user.kind = .read := by
            by_contra other
            exact own (if_neg other).symm
          rw [if_pos reads] at goes
          exact .inl (by simpa using goes)
        | fullWaiters =>
          have writes : user.kind ≠ .read := fun reads => own (if_pos reads).symm
          rw [if_neg writes] at goes
          change world.buf.bytesAvailable ≠ bufferSize
          simpa using goes
    · intro closed
      apply kept.closed
      unfold PipeUser.copied at closed
      split at closed <;> exact closed

end

omit [DecidableEq Id] in
theorem noWriters_setFile {file : Nat} {now : Option PipeEnd} (eq : ∀ pipeEnd, now = some pipeEnd → ∃ pre, world.files file = some pre ∧
    pipeEnd.writable = pre.writable) (none_ : world.NoWriters) : (world.setFile file now).NoWriters := by
  intro other pipeEnd there
  by_cases h : other = file
  · rw [h] at there
    obtain ⟨pre, hf, flags⟩ := eq pipeEnd (by simpa [setFile] using there)
    exact flags.trans (none_ file pre hf)
  · exact none_ other pipeEnd ((update_of_ne h ..).symm.trans there)

theorem Kept.markClosed (kept : world.Kept) (isUser : world.users id = some user) (holding : user.phase = .holding) {pipeEnd : PipeEnd}
    (isFile : world.files user.file = some pipeEnd) (last : pipeEnd.writable = true → world.waiters.length ≤ 1 ∧
      ∀ file other, file ≠ user.file → world.files file = some other → other.writable = false) :
    (world.markClosed id user pipeEnd).Kept := by
  have locked := kept.held id user isUser (.inl holding)
  unfold PipeWorld.markClosed
  split
  case isTrue writes =>
    obtain ⟨single, alone⟩ := last writes
    refine kept.onward isUser holding nofun nofun (fun queue satisfied => ?_) (fun _ => locked) (fun _ _ eq => eq) fun _ => ?_
    · cases queue with
      | waiters => exact .inr ⟨single, locked, _, rfl, .head _⟩
      | fullWaiters => exact .inl satisfied
    · intro other now there
      by_cases h : other = user.file
      · rw [h] at there
        exact nomatch (update_self ..).symm.trans there
      · exact alone other now h ((update_of_ne h ..).symm.trans there)
  case isFalse reads =>
    refine kept.onward isUser holding nofun nofun (fun queue satisfied => .inl ?_) (fun _ => locked) (fun _ _ eq => eq) fun closed => ?_
    · cases queue with
      | fullWaiters => exact satisfied
      | waiters =>
        refine satisfied.imp_right fun none_ file other there => ?_
        by_cases h : file = user.file
        · grind
        · exact none_ file other ((update_of_ne h ..).trans there)
    · exact noWriters_setFile nofun (kept.closed closed)

/-! ## Sleeping and waking -/

omit [DecidableEq Id] in
theorem queue_setQueue (tasks : List Id) (queue other : PipeQueue) : (world.setQueue queue tasks).queue other =
    if other = queue then tasks else world.queue other := by
  cases queue <;> cases other <;> rfl

theorem Kept.requeued (kept : world.Kept) (tasks : List Id)
    (idle : ∀ own, world.users id = some own → own.phase ≠ .holding ∧ ∀ queues, own.phase ≠ .waking queues)
    (next : new.phase = .asleep queue ∨ new.phase = .entering)
    (elsewhere : ∀ other, other ≠ queue → id ∉ world.queue other)
    (mem : ∀ task, task ∈ tasks → task = id ∧ new.phase = .asleep queue ∨ task ≠ id ∧ task ∈ world.queue queue) (nodup : tasks.Nodup)
    (sleepers : world.Satisfied queue → ∀ task ∈ tasks, tasks.head? = some task ∧ world.WakePending queue)
    (alone : new.phase = .asleep queue → world.inodeLock = some id →
      ∀ other wait, world.users other = some wait → wait.phase ≠ .blocked) :
    Kept { world.setQueue queue tasks with users := update world.users id (some new) } := by
  generalize made : ({ world.setQueue queue tasks with users := update world.users id (some new) } : PipeWorld Id) = after
  have users : ∀ other, after.users other = if other = id then some new else world.users other := by
    intro other
    rw [← made]
    exact Function.update_apply ..
  have queues : ∀ other, after.queue other = if other = queue then tasks else world.queue other := by
    intro other
    rw [← made, ← queue_setQueue]
    cases other <;> rfl
  obtain ⟨buf, files, lock, inodeLock⟩ : after.buf = world.buf ∧ after.files = world.files ∧ after.lock = world.lock ∧
      after.inodeLock = world.inodeLock := by
    rw [← made]
    cases queue <;> exact ⟨rfl, rfl, rfl, rfl⟩
  have known : ∀ other own, after.users other = some own → other = id ∧ own = new ∨ other ≠ id ∧ world.users other = some own := by
    intro other own there
    rw [users] at there
    split at there
    case isTrue h => exact .inl ⟨h, (some.inj there).symm⟩
    case isFalse h => exact .inr ⟨h, there⟩
  have pending : ∀ other, world.WakePending other → after.WakePending other := by
    rintro other ⟨holder, own, woken, locked, isOwn, waking, among⟩
    have ne : holder ≠ id := by
      rintro rfl
      exact (idle own isOwn).2 woken waking
    exact ⟨holder, own, woken, lock.trans locked, by rw [users, if_neg ne, isOwn], waking, among⟩
  have still : ∀ other, after.Satisfied other → world.Satisfied other := by
    intro other satisfied
    cases other with
    | waiters =>
      refine satisfied.imp (fun bytes => buf ▸ bytes) fun none_ file pipeEnd there => none_ file pipeEnd (files ▸ there)
    | fullWaiters => exact fun full => satisfied (buf ▸ full)
  have asleepBefore : ∀ other task, task ≠ id → task ∈ world.queue other → ∃ own, after.users task = some own ∧ own.phase = .asleep other := by
    intro other task ne among
    obtain ⟨own, isOwn, asleep⟩ := kept.queued other task among
    exact ⟨own, by rw [users, if_neg ne, isOwn], asleep⟩
  refine { sleepers := fun other satisfied task member => ?_, inode := ?_, held := ?_, queued := fun other task member => ?_,
           nodup := fun other => ?_, closed := fun closed file pipeEnd there => ?_, readable := ?_ }
  · rw [queues] at member ⊢
    split at member
    case isTrue h =>
      obtain ⟨first, woken⟩ := sleepers (still queue (h ▸ satisfied)) task member
      rw [if_pos h]
      exact ⟨first, h ▸ pending queue woken⟩
    case isFalse h =>
      obtain ⟨first, woken⟩ := kept.sleepers other (still other satisfied) task member
      rw [if_neg h]
      exact ⟨first, pending other woken⟩
  · intro other wait holder owner isWaiting wants locked isOwner queue'
    rw [inodeLock] at locked
    rcases known other wait isWaiting with ⟨_, rfl⟩ | ⟨_, waitingBefore⟩
    · grind
    · rcases known holder owner isOwner with ⟨rfl, rfl⟩ | ⟨_, ownerBefore⟩
      · rcases next with phase | phase
        · grind
        · exact fun asleep => nomatch phase.symm.trans asleep
      · exact kept.inode other wait holder owner waitingBefore wants locked ownerBefore queue'
  · intro other own isOwn busy
    rw [lock]
    rcases known other own isOwn with ⟨_, rfl⟩ | ⟨_, ownBefore⟩
    · grind
    · exact kept.held other own ownBefore busy
  · rw [queues] at member
    split at member
    case isTrue h =>
      rcases mem task member with ⟨rfl, asleep⟩ | ⟨ne, among⟩
      · exact ⟨new, by rw [users, if_pos rfl], h ▸ asleep⟩
      · exact h ▸ asleepBefore queue task ne among
    case isFalse h =>
      refine asleepBefore other task ?_ member
      rintro rfl
      exact elsewhere other h member
  · rw [queues]
    split
    · exact nodup
    · exact kept.nodup other
  · exact kept.closed (buf ▸ closed) file pipeEnd (files ▸ there)
  · intro other own isOwn wants reads
    rcases known other own isOwn with ⟨_, rfl⟩ | ⟨_, ownBefore⟩
    · rcases next with phase | phase <;> exact nomatch wants.symm.trans phase
    · exact kept.readable other own ownBefore wants reads

theorem Kept.sleepOn (kept : world.Kept) (isUser : world.users id = some user) (drowsy : user.phase = .drowsy queue)
    (waits : world.Satisfied queue → world.queue queue = [] ∧ world.WakePending queue)
    (alone : world.inodeLock = some id → ∀ other wait, world.users other = some wait → wait.phase ≠ .blocked) :
    ((world.setQueue queue (world.queue queue ++ [id])).setPhase id user (.asleep queue)).Kept := by
  have only : ∀ own, world.users id = some own → own.phase = .drowsy queue := by
    intro own isOwn
    obtain rfl := some.inj (isUser.symm.trans isOwn)
    exact drowsy
  have quiet : ∀ other, id ∉ world.queue other := fun other =>
    kept.not_queued fun own isOwn queue' asleep => nomatch (only own isOwn).symm.trans asleep
  have requeued : Kept { world.setQueue queue (world.queue queue ++ [id]) with
      users := update world.users id (some { user with phase := .asleep queue }) } := by
    refine kept.requeued _ (fun own isOwn => ?_) (.inl rfl) (fun other _ => quiet other) (fun task mem => ?_) ?_
      (fun satisfied task mem => ?_) fun _ => alone
    · have phase := only own isOwn
      exact ⟨fun busy => (nomatch phase.symm.trans busy), fun _ busy => nomatch phase.symm.trans busy⟩
    · rcases mem_append.mp mem with among | last
      · grind
      · exact .inl ⟨mem_singleton.mp last, rfl⟩
    · refine nodup_append.mpr ⟨kept.nodup queue, by simp, fun task among other last => ?_⟩
      rintro rfl
      exact quiet queue (mem_singleton.mp last ▸ among)
    · grind
  cases queue <;> exact requeued

theorem Kept.wakeOne (kept : world.Kept) (queue : PipeQueue) :
    (world.wakeOne queue).Kept ∧ (world.Satisfied queue → (world.wakeOne queue).queue queue = []) := by
  unfold PipeWorld.wakeOne
  cases tasks : world.queue queue with
  | nil => exact ⟨kept, fun _ => tasks⟩
  | cons sleeper rest =>
    obtain ⟨own, isOwn, asleep⟩ := kept.queued queue sleeper (tasks ▸ .head _)
    have unique := tasks ▸ kept.nodup queue
    obtain ⟨absent, nodup⟩ := nodup_cons.mp unique
    have alone : world.Satisfied queue → rest = [] := by
      intro satisfied
      refine eq_nil_iff_forall_not_mem.mpr fun task mem => absent ?_
      have first := (kept.sleepers queue satisfied task (tasks ▸ .tail _ mem)).1
      rw [tasks] at first
      exact some.inj first ▸ mem
    have users : (world.setQueue queue rest).users sleeper = some own := by cases queue <;> exact isOwn
    dsimp only
    rw [users]
    have only : ∀ other, world.users sleeper = some other → other.phase = .asleep queue := by
      intro other isOther
      obtain rfl := some.inj (isOwn.symm.trans isOther)
      exact asleep
    have requeued : Kept { world.setQueue queue rest with
        users := update world.users sleeper (some { own with phase := .entering }) } := by
      refine kept.requeued rest (fun other isOther => ?_) (.inr rfl) (fun other ne mem => ?_) (fun task mem => .inr ⟨?_, ?_⟩)
        nodup (fun satisfied task mem => ?_) nofun
      · have phase := only other isOther
        exact ⟨fun busy => (nomatch phase.symm.trans busy), fun _ busy => nomatch phase.symm.trans busy⟩
      · obtain ⟨mine, isMine, there⟩ := kept.queued other sleeper mem
        obtain rfl := UserPhase.asleep.inj (there.symm.trans (only mine isMine))
        exact ne rfl
      · rintro rfl
        exact absent mem
      · exact tasks ▸ .tail _ mem
      · exact nomatch alone satisfied ▸ mem
    cases queue with
    | waiters => exact ⟨requeued, alone⟩
    | fullWaiters => exact ⟨requeued, alone⟩

omit [DecidableEq Id] in
theorem satisfied_congr {other : PipeWorld Id} (buf : other.buf = world.buf) (files : other.files = world.files) :
    other.Satisfied queue ↔ world.Satisfied queue := by
  cases queue with
  | waiters => rw [Satisfied, Satisfied, NoWriters, NoWriters, buf, files]
  | fullWaiters => rw [Satisfied, Satisfied, buf]

theorem satisfied_wakeOne : (world.wakeOne queue).Satisfied queue ↔ world.Satisfied queue := by
  unfold PipeWorld.wakeOne
  split
  case h_1 => exact .rfl
  case h_2 =>
    dsimp only
    split <;> cases queue <;> exact satisfied_congr rfl rfl

theorem Kept.wakeOne_users (kept : world.Kept) (isUser : world.users id = some user) (awake : ∀ queue, user.phase ≠ .asleep queue)
    (queue : PipeQueue) : (world.wakeOne queue).users id = some user := by
  unfold PipeWorld.wakeOne
  cases tasks : world.queue queue with
  | nil => exact isUser
  | cons sleeper rest =>
    obtain ⟨own, isOwn, asleep⟩ := kept.queued queue sleeper (tasks ▸ .head _)
    have ne : id ≠ sleeper := by
      rintro rfl
      obtain rfl := some.inj (isUser.symm.trans isOwn)
      exact awake queue asleep
    have users : (world.setQueue queue rest).users sleeper = some own := by cases queue <;> exact isOwn
    dsimp only
    rw [users]
    have kept : ((world.setQueue queue rest).setPhase sleeper own .entering).users id = (world.setQueue queue rest).users id :=
      update_of_ne ne ..
    rw [kept]
    cases queue <;> exact isUser

theorem Kept.wokenOne (kept : world.Kept) (isUser : world.users id = some user) {queues : List PipeQueue}
    (waking : user.phase = .waking (queue :: queues)) (empty : world.Satisfied queue → world.queue queue = []) :
    (world.wokenOne id user queues).Kept := by
  have mine := kept.held id user isUser (.inr ⟨_, waking⟩)
  have notAsleep : ∀ own, world.users id = some own → ∀ queue, own.phase ≠ .asleep queue := by
    intro own isOwn other asleep
    obtain rfl := some.inj (isUser.symm.trans isOwn)
    exact nomatch waking.symm.trans asleep
  have later : ∀ other, world.Satisfied other → ∀ task ∈ world.queue other, (world.queue other).head? = some task ∧ other ∈ queues := by
    intro other satisfied task mem
    obtain ⟨first, holder, own, woken, locked, isOwn, phase, among⟩ := kept.sleepers other satisfied task mem
    obtain rfl := some.inj (mine.symm.trans locked)
    obtain rfl := some.inj (isUser.symm.trans isOwn)
    obtain rfl := UserPhase.waking.inj (waking.symm.trans phase)
    rcases mem_cons.mp among with rfl | rest
    · exact nomatch empty satisfied ▸ mem
    · exact ⟨first, rest⟩
  unfold PipeWorld.wokenOne
  cases queues with
  | cons next rest =>
    refine kept.moved notAsleep nofun (fun other satisfied task mem => ?_) (fun _ => mine) (fun _ _ locked => locked)
      (fun _ _ locked => locked) nofun kept.closed nofun
    obtain ⟨first, among⟩ := later other satisfied task mem
    exact ⟨first, id, _, _, mine, update_self .., rfl, among⟩
  | nil =>
    have nobody : ∀ other, world.Satisfied other → ∀ task ∈ world.queue other, False := fun other satisfied task mem =>
      nomatch (later other satisfied task mem).2
    dsimp only
    split
    case isTrue =>
      refine kept.moved notAsleep nofun (fun other satisfied task mem => (nobody other satisfied task mem).elim) ?_
        (fun other ne locked => absurd (some.inj (locked.symm.trans mine)) ne) (fun holder _ locked => ?_) nofun kept.closed nofun
      · rintro (busy | ⟨_, busy⟩) <;> exact nomatch busy
      · split at locked
        · exact nomatch locked
        · exact locked
    case isFalse =>
      exact kept.moved notAsleep nofun (fun other satisfied task mem => (nobody other satisfied task mem).elim) (fun _ => mine)
        (fun _ _ locked => locked) (fun _ _ locked => locked) nofun kept.closed nofun

/-! ## The files -/

section

omit [DecidableEq Id]

theorem Kept.refiled {files : Nat → Option PipeEnd} (kept : world.Kept) (still : NoWriters { world with files } → world.NoWriters)
    (closed : world.buf.isWriteClosed = true → NoWriters { world with files }) : Kept { world with files } := by
  refine { sleepers := fun queue satisfied task mem => ?_, inode := kept.inode, held := kept.held, queued := fun queue => ?_,
           nodup := fun queue => ?_, closed := closed, readable := kept.readable }
  · cases queue with
    | waiters => exact kept.sleepers .waiters (satisfied.imp_right still) task mem
    | fullWaiters => exact kept.sleepers .fullWaiters satisfied task mem
  · cases queue with
    | waiters => exact kept.queued .waiters
    | fullWaiters => exact kept.queued .fullWaiters
  · cases queue with
    | waiters => exact kept.nodup .waiters
    | fullWaiters => exact kept.nodup .fullWaiters

theorem noWriters_counted {file : Nat} {pre now : PipeEnd} (hf : world.files file = some pre) (eq : now.flags = pre.flags) :
    (world.setFile file (some now)).NoWriters ↔ world.NoWriters := by
  have access : now.writable = pre.writable := by rw [PipeEnd.writable, PipeEnd.writable, eq]
  constructor
  · intro silent other pipeEnd there
    by_cases h : other = file
    · rw [h, hf] at there
      cases there
      exact access.symm.trans (silent file now (update_self ..))
    · exact silent other pipeEnd ((update_of_ne h ..).trans there)
  · intro silent
    apply noWriters_setFile _ silent
    intro pipeEnd isNow
    cases isNow
    exact ⟨pre, hf, access⟩

end

omit [DecidableEq Id] in
theorem Kept.opened (kept : world.Kept) {file flags : Nat} (fresh : (world.files file).isNone)
    (open_ : PipeEnd.writable ⟨flags, 1⟩ = true → world.buf.isWriteClosed = false) : (world.setFile file (some ⟨flags, 1⟩)).Kept := by
  refine kept.refiled (fun silent other pipeEnd there => ?_) fun closed other pipeEnd there => ?_
  · have ne : other ≠ file := by
      rintro rfl
      exact nomatch (there ▸ fresh : (some pipeEnd).isNone = true)
    exact silent other pipeEnd ((update_of_ne ne ..).trans there)
  · by_cases h : other = file
    · have eq : some ⟨flags, 1⟩ = some pipeEnd := by simpa [h] using there
      cases eq
      exact Bool.eq_false_of_not_eq_true fun writes => nomatch closed.symm.trans (open_ writes)
    · exact kept.closed closed other pipeEnd ((update_of_ne h ..).symm.trans there)

/-! ## Runs -/

theorem idle_phase {own : PipeUser} (idle : PipeUser.idle (some own) = true) : ∃ res, own.phase = .returned res := by
  unfold PipeUser.idle at idle
  dsimp only at idle
  split at idle
  case h_1 res there => exact ⟨res, there⟩
  case h_2 => exact nomatch idle

omit [DecidableEq Id] in
theorem idle_returned (idle : PipeUser.idle (world.users id) = true) :
    ∀ own, world.users id = some own → own.phase = .blocked ∨ ∃ res, own.phase = .returned res := fun _ isOwn =>
  .inr (idle_phase (isOwn ▸ idle))

theorem start_phase (user : PipeUser) : (if user.refused then UserPhase.returned 0 else .entering) = .entering ∨
    ∃ res, (if user.refused then UserPhase.returned 0 else .entering) = .returned res := by
  split
  · exact .inr ⟨0, rfl⟩
  · exact .inl rfl

theorem Kept.started {inodeLock : Option Id} (kept : world.Kept)
    (pre : ∀ user, world.users id = some user → user.phase = .blocked ∨ ∃ res, user.phase = .returned res)
    (inode : ∀ holder, holder ≠ id → inodeLock = some holder → world.inodeLock = some holder) :
    Kept { world.start id user with inodeLock } := by
  have ne : (if user.refused then UserPhase.returned 0 else .entering) ≠ .blocked := by split <;> exact nofun
  exact kept.called pre (.inr (start_phase user)) inode (fun wants => absurd wants ne) (fun wants => absurd wants ne) .rfl

theorem Kept.step (kept : world.Kept) (act : PipeAct Id) (behaves : world.Behaves act) (hs : world.step act = some after) :
    after.Kept := by
  cases act with
  | call id kind file size source =>
    unfold PipeWorld.step at hs
    dsimp only at hs
    split at hs
    case h_1 => exact nomatch hs
    case h_2 pipeEnd isFile =>
    split at hs
    case isFalse => exact nomatch hs
    case isTrue idle =>
    cases hs
    split
    case isTrue named =>
      refine kept.called (idle_returned idle) (.inl rfl) (fun _ _ locked => locked) (fun _ => behaves.2 named) (fun _ reads => ?_) .rfl
      cases kind with
      | read => exact behaves.1 rfl pipeEnd isFile
      | write => exact nomatch reads
    case isFalse => exact kept.started (idle_returned idle) fun _ _ locked => locked
  | lockInode id =>
    unfold PipeWorld.step at hs
    dsimp only at hs
    split at hs
    case h_2 => exact nomatch hs
    case h_1 user isUser free =>
    split at hs
    case isFalse => exact nomatch hs
    case isTrue blocked =>
    have pre : ∀ own, world.users id = some own → own.phase = .blocked ∨ ∃ res, own.phase = .returned res := by
      intro own isOwn
      obtain rfl := some.inj (isUser.symm.trans isOwn)
      exact .inl blocked
    cases hs
    split
    · exact kept.started pre fun _ _ locked => locked
    · exact kept.started pre fun holder ne locked => absurd (some.inj locked).symm ne
  | acquire id =>
    unfold PipeWorld.step at hs
    dsimp only at hs
    split at hs
    case h_2 => exact nomatch hs
    case h_1 user isUser free =>
    split at hs
    case isFalse => exact nomatch hs
    case isTrue enters => exact some.inj hs ▸ kept.acquired isUser free enters
  | goOn id =>
    unfold PipeWorld.step at hs
    dsimp only at hs
    split at hs
    case h_1 => exact nomatch hs
    case h_2 user isUser =>
    split at hs
    case isTrue => exact nomatch hs
    case isFalse going =>
    have holding := Decidable.not_not.mp going
    obtain ⟨last, few⟩ := behaves user isUser holding
    split at hs
    case isTrue closes =>
      obtain ⟨pipeEnd, isFile, rfl⟩ := Option.map_eq_some_iff.mp hs
      exact kept.markClosed isUser holding isFile (last closes pipeEnd isFile)
    case isFalse open_ => exact some.inj hs ▸ kept.transfer isUser holding (few open_)
  | sleepOn id =>
    unfold PipeWorld.step at hs
    dsimp only at hs
    split at hs
    case h_2 => exact nomatch hs
    case h_1 user isUser =>
    split at hs
    case h_2 => exact nomatch hs
    case h_1 queue drowsy =>
      obtain ⟨waits, alone⟩ := behaves user queue isUser drowsy
      exact some.inj hs ▸ kept.sleepOn isUser drowsy waits alone
  | wakeUp id =>
    unfold PipeWorld.step at hs
    dsimp only at hs
    split at hs
    case h_2 => exact nomatch hs
    case h_1 user isUser =>
    split at hs
    case h_2 => exact nomatch hs
    case h_1 queue queues waking =>
      obtain ⟨woken, empty⟩ := kept.wakeOne queue
      have eq := kept.wakeOne_users isUser (fun other asleep => nomatch waking.symm.trans asleep) queue
      exact some.inj hs ▸ woken.wokenOne eq waking fun now => empty (satisfied_wakeOne.mp now)
  | «open» file flags =>
    unfold PipeWorld.step at hs
    dsimp only at hs
    split at hs
    case isFalse => exact nomatch hs
    case isTrue fresh => exact some.inj hs ▸ kept.opened fresh.2 behaves
  | dup file =>
    unfold PipeWorld.step at hs
    dsimp only at hs
    split at hs
    case h_1 => exact nomatch hs
    case h_2 pipeEnd isFile =>
    split at hs
    case isTrue => exact nomatch hs
    case isFalse =>
      have eq := noWriters_counted isFile (show PipeEnd.flags { pipeEnd with refCount := pipeEnd.refCount + 1 } = _ from rfl)
      exact some.inj hs ▸ kept.refiled eq.mp fun closed => eq.mpr (kept.closed closed)
  | close id file =>
    unfold PipeWorld.step at hs
    dsimp only at hs
    split at hs
    case h_1 => exact nomatch hs
    case h_2 pipeEnd isFile =>
    split at hs
    case isTrue => exact nomatch hs
    case isFalse open_ =>
    have idle : PipeUser.idle (world.users id) = true := by
      by_contra busy
      exact open_ (.inr (by simpa using busy))
    have eq := noWriters_counted isFile (show PipeEnd.flags { pipeEnd with refCount := pipeEnd.refCount - 1 } = _ from rfl)
    cases hs
    split
    case isTrue => exact kept.refiled eq.mp fun closed => eq.mpr (kept.closed closed)
    case isFalse =>
      refine kept.called (idle_returned idle) (.inr (.inl rfl)) (fun _ _ locked => locked) (fun wants => ?_) (fun wants => ?_) eq
      · exact nomatch wants
      · exact nomatch wants

theorem Kept.transfer_truthful (kept : world.Kept) {own : PipeUser} {res : Nat}
    (there : (world.transfer id user).users id = some own) (ret : own.phase = .returned res) (reads : own.kind = .read)
    (blocking : hasFlag own.flags oNonBlock = false) (short : res < own.size) : world.buf.bytesAvailable = 0 ∧ world.NoWriters := by
  unfold PipeWorld.transfer at there
  split at there
  case isTrue full =>
    obtain rfl : _ = own := by simpa [leave, setPhase] using there
    obtain rfl := UserPhase.returned.inj ret
    exact absurd short (Nat.not_lt_of_le full)
  case isFalse =>
  split at there
  case isFalse =>
    obtain rfl : _ = own := by simpa [setPhase] using there
    exact nomatch ret
  case isTrue waits =>
  split at there
  case isFalse =>
    obtain rfl : _ = own := by simpa [setPhase] using there
    exact nomatch ret
  case isTrue ends =>
    obtain rfl : _ = own := by simpa [leave, setPhase] using there
    unfold PipeUser.mustWait at waits
    rw [if_pos (show user.kind = .read from reads)] at waits
    have closed : world.buf.isWriteClosed = true := by
      have nonBlock : hasFlag user.flags oNonBlock = false := blocking
      simpa [nonBlock] using ends
    exact ⟨by simpa using waits, kept.closed closed⟩

theorem start_truthful {own : PipeUser} {res : Nat} (there : (world.start id user).users id = some own)
    (ret : own.phase = .returned res) (reads : own.kind = .read) (short : res < own.size)
    (allowed : user.kind = .read → PipeCall.allowed .read user.flags = true) : False := by
  obtain rfl : _ = own := by simpa [start, setPhase] using there
  cases refused : user.refused with
  | false => exact nomatch (if_neg (by simp [refused])).symm.trans ret
  | true =>
    have nothing : UserPhase.returned 0 = .returned res := (if_pos refused).symm.trans ret
    obtain rfl := UserPhase.returned.inj nothing
    unfold PipeUser.refused at refused
    have some_ : user.size ≠ 0 := Nat.ne_of_gt short
    have kind : user.kind = .read := reads
    simp [kind, some_, allowed kind] at refused

theorem Kept.truthful (kept : world.Kept) (act : PipeAct Id) (behaves : world.Behaves act) (hs : world.step act = some after) :
    world.Truthful act after := by
  intro id own res returns isOwn ret reads blocking short
  cases act with
  | call task kind file size source =>
    obtain rfl := some.inj returns
    unfold PipeWorld.step at hs
    dsimp only at hs
    split at hs
    case h_1 => exact nomatch hs
    case h_2 pipeEnd isFile =>
    split at hs
    case isFalse => exact nomatch hs
    case isTrue =>
    obtain rfl := some.inj hs
    split at isOwn
    case isTrue =>
      obtain rfl : _ = own := by simpa [setPhase] using isOwn
      exact nomatch ret
    case isFalse =>
      refine (start_truthful isOwn ret reads short fun isRead => ?_).elim
      cases kind with
      | read => exact behaves.1 rfl pipeEnd isFile
      | write => exact nomatch isRead
  | lockInode task =>
    obtain rfl := some.inj returns
    unfold PipeWorld.step at hs
    dsimp only at hs
    split at hs
    case h_2 => exact nomatch hs
    case h_1 user isUser free =>
    split at hs
    case isFalse => exact nomatch hs
    case isTrue blocked =>
      obtain rfl := some.inj hs
      have started : (world.start task user).users task = some own := by
        split at isOwn <;> exact isOwn
      exact (start_truthful started ret reads short (kept.readable task user isUser blocked)).elim
  | goOn task =>
    obtain rfl := some.inj returns
    unfold PipeWorld.step at hs
    dsimp only at hs
    split at hs
    case h_1 => exact nomatch hs
    case h_2 user isUser =>
    split at hs
    case isTrue => exact nomatch hs
    case isFalse =>
    split at hs
    case isTrue =>
      obtain ⟨pipeEnd, isFile, rfl⟩ := Option.map_eq_some_iff.mp hs
      unfold PipeWorld.markClosed at isOwn
      split at isOwn
      all_goals
        obtain rfl : _ = own := by simpa [setPhase, setFile] using isOwn
        exact nomatch ret
    case isFalse =>
      obtain rfl := some.inj hs
      exact kept.transfer_truthful isOwn ret reads blocking short
  | acquire | sleepOn | wakeUp | «open» | dup | close => exact nomatch returns

omit [DecidableEq Id] in
theorem kept_initial (named : Bool) : (initial named : PipeWorld Id).Kept where
  sleepers queue _ task mem := by cases queue <;> exact nomatch mem
  inode _ _ _ _ isUser := nomatch isUser
  held _ _ isUser := nomatch isUser
  queued queue task mem := by cases queue <;> exact nomatch mem
  nodup queue := by cases queue <;> exact nodup_nil
  closed closed := nomatch closed
  readable _ _ isUser := nomatch isUser

/-- In every run whose steps behave nobody sleeps in vain, and a read that ends early has found the end of the file. -/
theorem reached_awake {named : Bool} (reached : Reaches step Behaves (initial named) world) :
    world.Awake ∧ ∀ act after, world.Behaves act → world.step act = some after → world.Truthful act after := by
  have kept : world.Kept := reached.invariant Kept (kept_initial named) fun _ act _ kept behaves hs => kept.step act behaves hs
  exact ⟨kept.toAwake, fun act _ behaves hs => kept.truthful act behaves hs⟩

/-- A reader falls asleep and is woken by a byte. -/
theorem reached_awake_woken : ∃ world : PipeWorld Nat, Reaches step Behaves (initial false) world ∧
    world.buf.bytesAvailable = 1 ∧ world.waiters = [] ∧ world.Awake := by
  have called : Reaches step Behaves (initial false : PipeWorld Nat) _ := Reaches.start.next (.call 0 .read 0 5 fun _ => 0)
    (show Behaves _ (.call 0 .read 0 5 fun _ => 0) from ⟨fun _ _ isFile => some.inj isFile ▸ rfl, nofun⟩) rfl
  have acquired := called.next (.acquire 0) (show Behaves _ (.acquire 0) from trivial) rfl
  have released := acquired.next (.goOn 0) (by
    intro user isUser _
    exact some.inj isUser ▸ ⟨nofun, fun _ _ _ => by decide⟩) rfl
  have slept := released.next (.sleepOn 0) (by
    intro user queue isUser drowsy
    cases isUser
    obtain rfl := UserPhase.drowsy.inj drowsy
    refine ⟨fun satisfied => ?_, nofun⟩
    rcases satisfied with bytes | silent
    · exact absurd rfl bytes
    · exact absurd (silent 1 ⟨oWrOnly, 1⟩ rfl) (by decide)) rfl
  have writes := slept.next (.call 1 .write 1 1 fun _ => 7) (by
    constructor
    · nofun
    · nofun) rfl
  have locked := writes.next (.acquire 1) (show Behaves _ (.acquire 1) from trivial) rfl
  have copied := locked.next (.goOn 1) (by
    intro user isUser _
    exact some.inj isUser ▸ ⟨nofun, fun _ _ _ => by decide⟩) rfl
  have woken := copied.next (.wakeUp 1) (show Behaves _ (.wakeUp 1) from trivial) rfl
  exact ⟨_, woken, rfl, rfl, (reached_awake woken).1⟩

/-- The reader has released the lock and is not in the queue yet; the writer finds nobody to wake. -/
theorem wake_up_lost : ∃ world : PipeWorld Nat, Reaches step (fun _ _ => True) (initial false) world ∧ ¬ world.Awake := by
  have ran : runAll step (fun _ _ => True) [.call 0 .read 0 5 fun _ => 0, .acquire 0, .goOn 0, .call 1 .write 1 1 fun _ => 7, .acquire 1,
    .goOn 1, .wakeUp 1, .goOn 1, .sleepOn 0] (initial false : PipeWorld Nat) = some _ := rfl
  have hr : Reaches step (fun _ _ => True) (initial false : PipeWorld Nat) _ := Reaches.start.runAll ran
  refine ⟨_, hr, fun awake => ?_⟩
  obtain ⟨holder, _, _, locked, _⟩ := (awake.sleepers .waiters (.inl (by decide)) 0 mem_cons_self).2
  exact nomatch locked

end RosKernel.Filesys.PipeWorld
