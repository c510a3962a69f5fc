import RosKernel.Filesys.Pipe

/-! How the users of a pipe sleep and wake: `pipe.cpp` with `SleepOn`, `WakeUp` and the inode lock.

A step is one acquisition, one turn of a loop under the pipe's lock, one `SleepOn` or one `WakeUp`.
A task gives the lock up before it is in the queue that it will sleep in. The bytes that are read
are left out; `PipeFifo` has them.
-/

set_option autoImplicit false

namespace RosKernel.Filesys

open Library

inductive UserKind where
  | read
  | write
  | close
deriving DecidableEq

inductive PipeQueue where
  | waiters
  | fullWaiters
deriving DecidableEq

inductive UserPhase where
  /-- The inode lock is wanted. -/
  | blocked
  | entering
  | holding
  /-- Under the lock, with calls of `WakeUp` to make. -/
  | waking (queues : List PipeQueue)
  /-- The lock is released, and the task is not in the queue yet. -/
  | drowsy (queue : PipeQueue)
  | asleep (queue : PipeQueue)
  | returned (result : Nat)
deriving DecidableEq

structure PipeUser where
  kind : UserKind
  file : Nat
  flags : Nat
  size : Nat
  source : Bytes
  count : Nat
  phase : UserPhase

structure PipeEnd where
  flags : Nat
  refCount : Nat

/-- A pipe and its users. A named one is opened through `VFSManager::Open`, and its files are used
under the lock of their inode. -/
structure PipeWorld (Id : Type) where
  named : Bool
  buf : PipeBuffer
  lock : Option Id
  inodeLock : Option Id
  waiters : List Id
  fullWaiters : List Id
  users : Id → Option PipeUser
  files : Nat → Option PipeEnd

inductive PipeAct (Id : Type) where
  | call (id : Id) (kind : PipeKind) (file size : Nat) (source : Bytes)
  | lockInode (id : Id)
  | acquire (id : Id)
  | goOn (id : Id)
  | sleepOn (id : Id)
  | wakeUp (id : Id)
  | open (file flags : Nat)
  | dup (file : Nat)
  | close (id : Id) (file : Nat)

def PipeEnd.writable (pipeEnd : PipeEnd) : Bool := hasFlag pipeEnd.flags oWrOnly || hasFlag pipeEnd.flags oRdWr

def PipeKind.user : PipeKind → UserKind
  | .read => .read
  | .write => .write

namespace PipeUser

section

variable (user : PipeUser)
include user

/-- `Read` and `Write` return at once: nothing is asked for, or the file is not open for it. -/
def refused : Bool :=
  user.size == 0 || match user.kind with
    | .read => !PipeCall.allowed .read user.flags
    | .write => !PipeCall.allowed .write user.flags
    | .close => false

/-- Where it sleeps, and whom it wakes. -/
def own : PipeQueue := if user.kind = .read then .waiters else .fullWaiters

def others : PipeQueue := if user.kind = .read then .fullWaiters else .waiters

def mustWait (buf : PipeBuffer) : Bool :=
  if user.kind = .read then buf.bytesAvailable == 0 else buf.bytesAvailable == bufferSize

def chunk (buf : PipeBuffer) : Nat :=
  if user.kind = .read then buf.readChunk (sub32 user.size user.count) else buf.writeChunk (sub32 user.size user.count)

def copied (buf : PipeBuffer) : PipeBuffer :=
  if user.kind = .read then buf.afterRead (user.chunk buf)
  else buf.afterWrite (fun k => user.source (user.count + k)) (user.chunk buf)

end

/-- The task may start another call. -/
def idle : Option PipeUser → Bool
  | none => true
  | some user => match user.phase with
    | .returned _ => true
    | _ => false

end PipeUser

namespace PipeWorld

variable {Id : Type} [DecidableEq Id]

/-- The two files of `Sys_Pipe`; a named pipe is opened later. -/
def initial (named : Bool) : PipeWorld Id where
  named := named
  buf := ⟨fun _ => 0, 0, 0, 0, false⟩
  lock := none
  inodeLock := none
  waiters := []
  fullWaiters := []
  users := fun _ => none
  files := fun file => if named then none else if file = 0 then some ⟨0, 1⟩ else if file = 1 then some ⟨oWrOnly, 1⟩ else none

def setPhase (world : PipeWorld Id) (id : Id) (user : PipeUser) (phase : UserPhase) : PipeWorld Id := { world with
  users := Function.update world.users id (some { user with phase }) }

def queue (world : PipeWorld Id) : PipeQueue → List Id
  | .waiters => world.waiters
  | .fullWaiters => world.fullWaiters

section

variable (world : PipeWorld Id)
include world

def setQueue (queue : PipeQueue) (tasks : List Id) : PipeWorld Id :=
  match queue with
  | .waiters => { world with waiters := tasks }
  | .fullWaiters => { world with fullWaiters := tasks }

def setFile (file : Nat) (pipeEnd : Option PipeEnd) : PipeWorld Id := { world with
  files := Function.update world.files file pipeEnd }

/-- The call gives up the pipe's lock and the inode lock and returns. -/
def leave (id : Id) (user : PipeUser) (result : Nat) : PipeWorld Id :=
  { world.setPhase id user (.returned result) with
    lock := none
    inodeLock := if world.inodeLock = some id then none else world.inodeLock }

/-- One turn of the loop of `Read` or `Write`. -/
def transfer (id : Id) (user : PipeUser) : PipeWorld Id :=
  if user.size ≤ user.count then world.leave id user user.count
  else if user.mustWait world.buf then
    if world.buf.isWriteClosed || hasFlag user.flags oNonBlock then world.leave id user user.count
    else { world.setPhase id user (.drowsy user.own) with lock := none }
  else
    { world.setPhase id { user with count := (user.count + user.chunk world.buf) % 2 ^ 32 } (.waking [user.others]) with
      buf := user.copied world.buf }

/-- `Close`: from here on the file is no longer open. -/
def markClosed (id : Id) (user : PipeUser) (pipeEnd : PipeEnd) : PipeWorld Id :=
  let closed := world.setFile user.file none
  if pipeEnd.writable then
    { closed.setPhase id user (.waking [.waiters, .fullWaiters]) with buf := { world.buf with isWriteClosed := true } }
  else closed.setPhase id user (.waking [.fullWaiters])

end

variable (world : PipeWorld Id)

/-- `WakeUp`: the task that has slept longest goes for the lock again. -/
def wakeOne (queue : PipeQueue) : PipeWorld Id :=
  match world.queue queue with
  | [] => world
  | sleeper :: rest =>
    let world := world.setQueue queue rest
    match world.users sleeper with
    | none => world
    | some user => world.setPhase sleeper user .entering

/-- What a user does after one of its `WakeUp` calls. -/
def wokenOne (id : Id) (user : PipeUser) : List PipeQueue → PipeWorld Id
  | [] => if user.kind = .close then world.leave id user 0 else world.setPhase id user .holding
  | queues => world.setPhase id user (.waking queues)

def start (id : Id) (user : PipeUser) : PipeWorld Id :=
  world.setPhase id user (if user.refused then .returned 0 else .entering)

def step : PipeAct Id → Option (PipeWorld Id)
  | .call id kind file size source =>
    match world.files file with
    | none => none
    | some pipeEnd =>
      if PipeUser.idle (world.users id) then
        let user : PipeUser := ⟨kind.user, file, pipeEnd.flags, size % 2 ^ 32, source, 0, .blocked⟩
        some (if world.named then world.setPhase id user .blocked else world.start id user)
      else none
  | .lockInode id =>
    match world.users id, world.inodeLock with
    | some user, none =>
      if user.phase = .blocked then
        some (if user.refused then world.start id user else { world.start id user with inodeLock := some id })
      else none
    | _, _ => none
  | .acquire id =>
    match world.users id, world.lock with
    | some user, none => if user.phase = .entering then some { world.setPhase id user .holding with lock := some id } else none
    | _, _ => none
  | .goOn id =>
    match world.users id with
    | none => none
    | some user =>
      if user.phase ≠ .holding then none
      else if user.kind = .close then (world.files user.file).map (world.markClosed id user)
      else some (world.transfer id user)
  | .sleepOn id =>
    match world.users id with
    | some user =>
      match user.phase with
      | .drowsy queue => some ((world.setQueue queue (world.queue queue ++ [id])).setPhase id user (.asleep queue))
      | _ => none
    | none => none
  | .wakeUp id =>
    match world.users id with
    | some user =>
      match user.phase with
      | .waking (queue :: queues) => some ((world.wakeOne queue).wokenOne id user queues)
      | _ => none
    | none => none
  | .open file flags => if world.named ∧ (world.files file).isNone then some (world.setFile file (some ⟨flags, 1⟩)) else none
  | .dup file =>
    match world.files file with
    | none => none
    | some pipeEnd =>
      if pipeEnd.refCount = 0 then none
      else some (world.setFile file (some { pipeEnd with refCount := pipeEnd.refCount + 1 }))
  | .close id file =>
    match world.files file with
    | none => none
    | some pipeEnd =>
      if pipeEnd.refCount = 0 ∨ !PipeUser.idle (world.users id) then none
      else
        let closed := world.setFile file (some { pipeEnd with refCount := pipeEnd.refCount - 1 })
        some (if 1 < pipeEnd.refCount then closed
          else closed.setPhase id ⟨.close, file, pipeEnd.flags, 0, fun _ => 0, 0, .entering⟩ .entering)

/-- No open file has write access. -/
def NoWriters : Prop := ∀ file pipeEnd, world.files file = some pipeEnd → pipeEnd.writable = false

/-- A sleeper of the queue has what it waits for. -/
def Satisfied : PipeQueue → Prop
  | .waiters => world.buf.bytesAvailable ≠ 0 ∨ world.NoWriters
  | .fullWaiters => world.buf.bytesAvailable ≠ bufferSize

/-- The holder of the lock is about to call `WakeUp`. -/
def WakePending (queue : PipeQueue) : Prop :=
  ∃ id user queues, world.lock = some id ∧ world.users id = some user ∧ user.phase = .waking queues ∧ queue ∈ queues

/-- Nobody sleeps in vain. -/
structure Awake (world : PipeWorld Id) : Prop where
  sleepers : ∀ queue, world.Satisfied queue → ∀ id ∈ world.queue queue, (world.queue queue).head? = some id ∧ world.WakePending queue
  inode : ∀ id user holder owner, world.users id = some user → user.phase = .blocked → world.inodeLock = some holder →
    world.users holder = some owner → ∀ queue, owner.phase ≠ .asleep queue

/-- The task whose `Read` may return in a step. -/
def returning : PipeAct Id → Option Id
  | .call id _ _ _ _ | .lockInode id | .goOn id => some id
  | _ => none

/-- A read that returns in this step with less than it was asked for, on a blocking file, has found the end of the file. -/
def Truthful (act : PipeAct Id) (after : PipeWorld Id) : Prop :=
  ∀ id user result, returning act = some id → after.users id = some user → user.phase = .returned result →
    user.kind = .read → hasFlag user.flags oNonBlock = false → result < user.size →
      world.buf.bytesAvailable = 0 ∧ world.NoWriters

/-- The steps that keep the pipe awake. A file is read only if it was opened for it. Who copies bytes or closes the last
writer finds at most one sleeper to wake; a writer is closed last, and none is opened after that. Whoever
goes to sleep still has to wait, or is alone in the queue and about to be woken. And nobody wants the inode lock of a sleeper. -/
def Behaves : PipeAct Id → Prop
  | .call _ kind file _ _ =>
    (kind = .read → ∀ pipeEnd, world.files file = some pipeEnd → PipeCall.allowed .read pipeEnd.flags = true) ∧
    (world.named = true → ∀ holder owner, world.inodeLock = some holder → world.users holder = some owner →
      ∀ queue, owner.phase ≠ .asleep queue)
  | .goOn id => ∀ user, world.users id = some user → user.phase = .holding →
    (user.kind = .close → ∀ pipeEnd, world.files user.file = some pipeEnd → pipeEnd.writable = true →
      world.waiters.length ≤ 1 ∧ ∀ file other, file ≠ user.file → world.files file = some other → other.writable = false) ∧
    (user.kind ≠ .close → user.count < user.size → user.mustWait world.buf = false → (world.queue user.others).length ≤ 1)
  | .sleepOn id => ∀ user queue, world.users id = some user → user.phase = .drowsy queue →
    (world.Satisfied queue → world.queue queue = [] ∧ world.WakePending queue) ∧
    (world.inodeLock = some id → ∀ other waiting, world.users other = some waiting → waiting.phase ≠ .blocked)
  | .open _ flags => PipeEnd.writable ⟨flags, 1⟩ = true → world.buf.isWriteClosed = false
  | _ => True

/-- The invariant of the runs. -/
structure Kept (world : PipeWorld Id) : Prop extends Awake world where
  held : ∀ id user, world.users id = some user → (user.phase = .holding ∨ ∃ queues, user.phase = .waking queues) → world.lock = some id
  queued : ∀ queue, ∀ id ∈ world.queue queue, ∃ user, world.users id = some user ∧ user.phase = .asleep queue
  nodup : ∀ queue, (world.queue queue).Nodup
  closed : world.buf.isWriteClosed = true → world.NoWriters
  readable : ∀ id user, world.users id = some user → user.phase = .blocked → user.kind = .read →
    PipeCall.allowed .read user.flags = true

end PipeWorld

end RosKernel.Filesys
