import RosKernel.Library.Bytes
import RosKernel.Library.RingBuffer
import RosKernel.Library.Runs

/-! A pipe, `kernel/filesys/pipefs/pipe.cpp`: it hands over its bytes in order.

A call holds `Lock` from an acquisition to the next return or sleep, and takes or puts a chunk at a time there. Any number of
calls are interleaved at their locked sections; when a sleeper wakes is left open.
-/

set_option autoImplicit false

namespace RosKernel.Filesys

open Library List
open Function (update update_of_ne update_self)

def bufferSize : Nat := 4096

def sub32 (a b : Nat) : Nat := (a + (2 ^ 32 - b % 2 ^ 32)) % 2 ^ 32

theorem sub32_eq {a b : Nat} (ord : b ≤ a) (lt : a < 2 ^ 32) : sub32 a b = a - b := by
  unfold sub32
  omega

structure PipeBuffer where
  data : Bytes
  readPos : Nat
  writePos : Nat
  bytesAvailable : Nat
  isWriteClosed : Bool

namespace PipeBuffer

section

variable (buf : PipeBuffer)
include buf

/-- The chunk that `Read` copies next, `needed` bytes being left to read. -/
def readChunk (needed : Nat) : Nat :=
  min (min needed buf.bytesAvailable) (sub32 bufferSize buf.readPos)

def afterRead (chunk : Nat) : PipeBuffer := { buf with
  readPos := (buf.readPos + chunk) % bufferSize
  bytesAvailable := sub32 buf.bytesAvailable chunk }

def writeChunk (left : Nat) : Nat :=
  min (min left (sub32 bufferSize buf.bytesAvailable)) (sub32 bufferSize buf.writePos)

def afterWrite (source : Bytes) (chunk : Nat) : PipeBuffer := { buf with
  data := fun pos => if buf.writePos ≤ pos ∧ pos < buf.writePos + chunk then source (pos - buf.writePos) else buf.data pos
  writePos := (buf.writePos + chunk) % bufferSize
  bytesAvailable := (buf.bytesAvailable + chunk) % 2 ^ 32 }

def content : List UInt8 := window buf.data bufferSize buf.readPos buf.bytesAvailable

end

/-- The positions and the count agree. -/
structure Valid (buf : PipeBuffer) : Prop where
  readPos_lt : buf.readPos < bufferSize
  available_le : buf.bytesAvailable ≤ bufferSize
  writePos_eq : buf.writePos = (buf.readPos + buf.bytesAvailable) % bufferSize

variable {buf : PipeBuffer} {needed chunk : Nat} {source : Bytes}

section

variable (valid : buf.Valid)
include valid

theorem Valid.writePos_lt : buf.writePos < bufferSize := by
  rw [valid.writePos_eq]
  exact Nat.mod_lt _ (by decide)

theorem readChunk_eq : buf.readChunk needed = min (min needed buf.bytesAvailable) (bufferSize - buf.readPos) := by
  rw [readChunk, sub32_eq (Nat.le_of_lt valid.readPos_lt) (by decide)]

theorem writeChunk_eq :
    buf.writeChunk needed = min (min needed (bufferSize - buf.bytesAvailable)) (bufferSize - buf.writePos) := by
  rw [writeChunk, sub32_eq valid.available_le (by decide), sub32_eq (Nat.le_of_lt valid.writePos_lt) (by decide)]

theorem valid_afterRead (available : chunk ≤ buf.bytesAvailable) : (buf.afterRead chunk).Valid := by
  have bound := valid.available_le
  have lt : buf.bytesAvailable < 2 ^ 32 := Nat.lt_of_le_of_lt bound (by decide)
  refine ⟨Nat.mod_lt _ (by decide), ?_, ?_⟩
  · change sub32 buf.bytesAvailable chunk ≤ bufferSize
    rw [sub32_eq available lt]
    omega
  · change buf.writePos = ((buf.readPos + chunk) % bufferSize + sub32 buf.bytesAvailable chunk) % bufferSize
    rw [sub32_eq available lt, Nat.mod_add_mod, Nat.add_assoc, Nat.add_sub_cancel' available]
    exact valid.writePos_eq

theorem content_afterRead (available : chunk ≤ buf.bytesAvailable) (straight : buf.readPos + chunk ≤ bufferSize) :
    buf.content = ((range chunk).map fun k => buf.data (buf.readPos + k)) ++ (buf.afterRead chunk).content := by
  have lt : buf.bytesAvailable < 2 ^ 32 := Nat.lt_of_le_of_lt valid.available_le (by decide)
  have rest : (buf.afterRead chunk).content = window buf.data bufferSize (buf.readPos + chunk) (buf.bytesAvailable - chunk) := by
    change window buf.data bufferSize ((buf.readPos + chunk) % bufferSize) (sub32 buf.bytesAvailable chunk) = _
    rw [window_mod, sub32_eq available lt]
  rw [rest, ← window_straight straight, ← window_append, Nat.add_sub_cancel' available]
  rfl

theorem valid_afterWrite (room : buf.bytesAvailable + chunk ≤ bufferSize) : (buf.afterWrite source chunk).Valid := by
  have count : (buf.bytesAvailable + chunk) % 2 ^ 32 = buf.bytesAvailable + chunk :=
    Nat.mod_eq_of_lt (Nat.lt_of_le_of_lt room (by decide))
  refine ⟨valid.readPos_lt, ?_, ?_⟩
  · change (buf.bytesAvailable + chunk) % 2 ^ 32 ≤ bufferSize
    rwa [count]
  · change (buf.writePos + chunk) % bufferSize = (buf.readPos + (buf.bytesAvailable + chunk) % 2 ^ 32) % bufferSize
    rw [count, valid.writePos_eq, Nat.mod_add_mod, Nat.add_assoc]

theorem content_afterWrite (room : buf.bytesAvailable + chunk ≤ bufferSize) (straight : buf.writePos + chunk ≤ bufferSize) :
    (buf.afterWrite source chunk).content = buf.content ++ (range chunk).map source := by
  have count : (buf.bytesAvailable + chunk) % 2 ^ 32 = buf.bytesAvailable + chunk :=
    Nat.mod_eq_of_lt (Nat.lt_of_le_of_lt room (by decide))
  have whole : (buf.afterWrite source chunk).content =
      window (buf.afterWrite source chunk).data bufferSize buf.readPos (buf.bytesAvailable + chunk) := by
    rw [← count]
    rfl
  rw [whole, window_append]
  congr 1
  · -- a byte in the buffer is not where one is put
    apply window_congr
    intro k low
    refine if_neg ?_
    rintro ⟨first, last⟩
    obtain ⟨j, place⟩ := Nat.exists_eq_add_of_le first
    apply @window_apart bufferSize buf.readPos _ k j low (by omega)
    rw [place, ← Nat.add_assoc, ← Nat.mod_add_mod (buf.readPos + buf.bytesAvailable), ← valid.writePos_eq,
      Nat.mod_eq_of_lt (by omega)]
  · rw [← window_mod, ← valid.writePos_eq, window_straight straight]
    apply map_congr_left
    intro k low
    have hin := mem_range.mp low
    change (if buf.writePos ≤ buf.writePos + k ∧ buf.writePos + k < buf.writePos + chunk then _ else _) = _
    rw [if_pos ⟨by omega, by omega⟩, Nat.add_sub_cancel_left]

end

end PipeBuffer

def oWrOnly : Nat := 1

def oRdWr : Nat := 2

def oNonBlock : Nat := 0x800

def hasFlag (flags flag : Nat) : Bool := flags &&& flag != 0

inductive PipeKind where
  | read
  | write
deriving DecidableEq

inductive PipePhase where
  | entering
  | holding
  | sleeping
  | returned (result : Nat)
deriving DecidableEq

/-- A call of `Read` or `Write`, with the buffer of its caller. -/
structure PipeCall where
  kind : PipeKind
  flags : Nat
  size : Nat
  buffer : Bytes
  count : Nat
  phase : PipePhase

/-- A copy between the buffer of the pipe and that of a caller. -/
structure PipeChunk (Id : Type) where
  id : Id
  kind : PipeKind
  bytes : List UInt8
  pipePos : Nat
  callPos : Nat

/-- The chunks so far are kept beside the state. -/
structure PipeRun (Id : Type) where
  buf : PipeBuffer
  lock : Option Id
  calls : Id → Option PipeCall
  chunks : List (PipeChunk Id)

inductive PipeOp (Id : Type) where
  | start (id : Id) (kind : PipeKind) (flags size : Nat) (buffer : Bytes)
  | acquire (id : Id)
  | goOn (id : Id)
  | closeWrite

namespace PipeCall

/-- The descriptor was opened for this kind of call. -/
def allowed (kind : PipeKind) (flags : Nat) : Bool :=
  match kind with
  | .read => !(hasFlag flags oWrOnly && !hasFlag flags oRdWr)
  | .write => hasFlag flags oWrOnly || hasFlag flags oRdWr

/-- The call cannot go on before another one has. -/
def mustWait (call : PipeCall) (buf : PipeBuffer) : Bool :=
  match call.kind with
  | .read => buf.bytesAvailable == 0
  | .write => buf.bytesAvailable == bufferSize

/-- The bytes it copies next. -/
def chunk (call : PipeCall) (buf : PipeBuffer) : Nat :=
  match call.kind with
  | .read => buf.readChunk (sub32 call.size call.count)
  | .write => buf.writeChunk (sub32 call.size call.count)

end PipeCall

def PipeRun.initial {Id : Type} : PipeRun Id := ⟨⟨fun _ => 0, 0, 0, 0, false⟩, none, fun _ => none, []⟩

namespace PipeRun

variable {Id : Type} [DecidableEq Id]

section

variable (run : PipeRun Id) (id : Id) (call : PipeCall)
include run id call

def setCall : PipeRun Id := { run with
  calls := update run.calls id (some call) }

/-- The call releases the lock, to sleep or to return. -/
def leave (phase : PipePhase) : PipeRun Id :=
  { run.setCall id { call with phase } with lock := none }

/-- One chunk of a call that has the lock. -/
def copy : PipeRun Id :=
  let chunk := call.chunk run.buf
  match call.kind with
  | .read =>
    let bytes := fun k => run.buf.data (run.buf.readPos + k)
    { run with
      buf := run.buf.afterRead chunk
      calls := update run.calls id (some { call with
        buffer := fun pos => if call.count ≤ pos ∧ pos < call.count + chunk then bytes (pos - call.count) else call.buffer pos
        count := (call.count + chunk) % 2 ^ 32 })
      chunks := run.chunks ++ [⟨id, .read, (range chunk).map bytes, run.buf.readPos, call.count⟩] }
  | .write =>
    let bytes := fun k => call.buffer (call.count + k)
    { run with
      buf := run.buf.afterWrite bytes chunk
      calls := update run.calls id (some { call with count := (call.count + chunk) % 2 ^ 32 })
      chunks := run.chunks ++ [⟨id, .write, (range chunk).map bytes, run.buf.writePos, call.count⟩] }

/-- What a call with the lock does next. -/
def goOn : PipeRun Id :=
  if call.size ≤ call.count then run.leave id call (.returned call.count)
  else if call.mustWait run.buf then
    if run.buf.isWriteClosed || hasFlag call.flags oNonBlock then run.leave id call (.returned call.count)
    else run.leave id call .sleeping
  else run.copy id call

end

def step (run : PipeRun Id) : PipeOp Id → Option (PipeRun Id)
  | .start id kind flags size buffer =>
    match run.calls id with
    | some _ => none
    | none =>
      let call : PipeCall := ⟨kind, flags, size % 2 ^ 32, buffer, 0, .entering⟩
      some (run.setCall id (if call.size = 0 || !PipeCall.allowed kind flags then { call with phase := .returned 0 } else call))
  | .acquire id =>
    match run.lock, run.calls id with
    | none, some call =>
      if call.phase = .entering ∨ call.phase = .sleeping then
        some { run.setCall id { call with phase := .holding } with lock := some id }
      else none
    | _, _ => none
  | .goOn id =>
    match run.calls id with
    | some call => if call.phase = .holding then some (run.goOn id call) else none
    | none => none
  | .closeWrite => if run.lock.isNone then some { run with buf := { run.buf with isWriteClosed := true } } else none

/-- The bytes of some chunks, in the order of the chunks. -/
def bytesOf (chunks : List (PipeChunk Id)) (among : PipeChunk Id → Bool) : List UInt8 :=
  (chunks.filter among).flatMap PipeChunk.bytes

/-- What a call and its chunks have to do with one another. -/
structure Accounted (run : PipeRun Id) (id : Id) (call : PipeCall) : Prop where
  exclusive : call.phase = .holding → run.lock = some id
  size_lt : call.size < 2 ^ 32
  count_le : call.count ≤ call.size
  bytes : bytesOf run.chunks (·.id == id) = (range call.count).map call.buffer
  returned : ∀ result, call.phase = .returned result → result = (bytesOf run.chunks (·.id == id)).length
  inside : ∀ chunk ∈ run.chunks, chunk.id = id → chunk.callPos + chunk.bytes.length ≤ call.size

structure Lossless (run : PipeRun Id) : Prop where
  valid : run.buf.Valid
  fifo : bytesOf run.chunks (·.kind == .read) ++ run.buf.content = bytesOf run.chunks (·.kind == .write)
  calls : ∀ id call, run.calls id = some call → run.Accounted id call
  known : ∀ chunk ∈ run.chunks, run.calls chunk.id ≠ none
  inside : ∀ chunk ∈ run.chunks, chunk.pipePos + chunk.bytes.length ≤ bufferSize

variable {run : PipeRun Id} {id : Id} {call next : PipeCall} {lock : Option Id}

omit [DecidableEq Id] in
theorem bytesOf_append (chunks more : List (PipeChunk Id)) (among : PipeChunk Id → Bool) :
    bytesOf (chunks ++ more) among = bytesOf chunks among ++ bytesOf more among := by
  unfold bytesOf
  rw [filter_append, flatMap_append]

theorem initial_lossless : (initial : PipeRun Id).Lossless where
  valid := ⟨Nat.zero_lt_succ _, Nat.zero_le _, rfl⟩
  fifo := rfl
  calls _ _ none := nomatch none
  known := forall_mem_nil _
  inside := forall_mem_nil _

theorem forall_calls {P : Id → PipeCall → Prop} (others : ∀ other own, other ≠ id → run.calls other = some own → P other own)
    (mine : P id next) (other : Id) (own : PipeCall) (isOwn : update run.calls id (some next) other = some own) :
    P other own := by
  by_cases eq : other = id
  · grind
  · grind

theorem known_update {chunk : PipeChunk Id} (known : run.calls chunk.id ≠ none) :
    update run.calls id (some next) chunk.id ≠ none := by
  by_cases eq : chunk.id = id
  · rw [eq, update_self]
    exact Option.some_ne_none next
  · rwa [update_of_ne eq]

section

variable (lossless : run.Lossless)
include lossless

theorem Lossless.turned (isCall : run.calls id = some call)
    (eq : next.size = call.size ∧ next.count = call.count ∧ next.buffer = call.buffer)
    (holds : next.phase = .holding → lock = some id)
    (others : ∀ other, other ≠ id → run.lock = some other → lock = some other)
    (ret : ∀ res, next.phase = .returned res → res = call.count) : PipeRun.Lossless { run.setCall id next with lock } := by
  obtain ⟨size, count, buffer⟩ := eq
  have own := lossless.calls id call isCall
  refine ⟨lossless.valid, lossless.fifo, forall_calls ?_ ?_, fun chunk mem => known_update (lossless.known chunk mem), lossless.inside⟩
  · intro other own ne isOwn
    have old := lossless.calls other own isOwn
    exact ⟨fun holding => others other ne (old.exclusive holding), old.size_lt, old.count_le, old.bytes, old.returned, old.inside⟩
  · refine ⟨holds, by rw [size]; exact own.size_lt, by rw [size, count]; exact own.count_le, by rw [count, buffer]; exact own.bytes, ?_,
      by rw [size]; exact own.inside⟩
    intro res isReturned
    change res = (bytesOf run.chunks (·.id == id)).length
    rw [own.bytes, length_map, length_range]
    exact ret res isReturned

theorem Lossless.started (isNew : run.calls id = none) (fresh : next.count = 0) (size : next.size < 2 ^ 32)
    (phase : next.phase = .entering ∨ next.phase = .returned 0) : (run.setCall id next).Lossless := by
  have none : bytesOf run.chunks (·.id == id) = [] := by
    unfold bytesOf
    rw [filter_eq_nil_iff.mpr, flatMap_nil]
    intro chunk mem mine
    exact lossless.known chunk mem (eq_of_beq mine ▸ isNew)
  refine ⟨lossless.valid, lossless.fifo, forall_calls ?_ ?_, fun chunk mem => known_update (lossless.known chunk mem), lossless.inside⟩
  · intro other own _ isOwn
    have old := lossless.calls other own isOwn
    exact ⟨old.exclusive, old.size_lt, old.count_le, old.bytes, old.returned, old.inside⟩
  · refine ⟨?_, size, by omega, ?_, ?_, ?_⟩
    · grind
    · change bytesOf run.chunks (·.id == id) = _
      rw [none, fresh]
      rfl
    · intro res isReturned
      change res = (bytesOf run.chunks (·.id == id)).length
      rw [none]
      rcases phase with eq | eq <;> rw [eq] at isReturned
      · exact nomatch isReturned
      · exact (PipePhase.returned.inj isReturned).symm
    · intro chunk mem mine
      exact (lossless.known chunk mem (mine ▸ isNew)).elim

section

variable (isCall : run.calls id = some call)
include isCall

theorem Lossless.copied {buf : PipeBuffer} {chunk : PipeChunk Id} (mine : chunk.id = id) (holding : next.phase = .holding)
    (held : run.lock = some id) (valid : buf.Valid)
    (fifo : bytesOf run.chunks (·.kind == .read) ++ bytesOf [chunk] (·.kind == .read) ++ buf.content = bytesOf run.chunks (·.kind == .write) ++ bytesOf [chunk] (·.kind == .write))
    (size : next.size = call.size) (place : chunk.callPos = call.count)
    (count : next.count = call.count + chunk.bytes.length) (fits : call.count + chunk.bytes.length ≤ call.size)
    (hin : chunk.pipePos + chunk.bytes.length ≤ bufferSize)
    (bytes : (range call.count).map call.buffer ++ chunk.bytes = (range next.count).map next.buffer) :
    PipeRun.Lossless { run with buf, calls := update run.calls id (some next), chunks := run.chunks ++ [chunk] } := by
  have own := lossless.calls id call isCall
  refine ⟨valid, ?_, forall_calls ?_ ?_, ?_, ?_⟩
  · rw [bytesOf_append, bytesOf_append]
    exact fifo
  · intro other own ne isOwn
    have old := lossless.calls other own isOwn
    have none : bytesOf (run.chunks ++ [chunk]) (·.id == other) = bytesOf run.chunks (·.id == other) := by
      have not_mine : (chunk.id == other) = false := beq_eq_false_iff_ne.mpr fun eq => ne (eq.symm.trans mine)
      rw [bytesOf_append]
      simp [bytesOf, not_mine]
    refine ⟨old.exclusive, old.size_lt, old.count_le, none.trans old.bytes, ?_, ?_⟩
    · intro res isReturned
      rw [none]
      exact old.returned res isReturned
    · intro more mem isOther
      rcases mem_append.mp mem with pre | isLast
      · exact old.inside more pre isOther
      · grind
  · have all : bytesOf (run.chunks ++ [chunk]) (·.id == id) = (range next.count).map next.buffer := by
      rw [bytesOf_append, own.bytes, ← bytes]
      simp [bytesOf, mine]
    refine ⟨fun _ => held, by rw [size]; exact own.size_lt, by rw [size, count]; exact fits, all, ?_, ?_⟩
    · grind
    · intro more mem isMine
      rw [size]
      rcases mem_append.mp mem with pre | isLast
      · exact own.inside more pre isMine
      · rw [mem_singleton.mp isLast, place]
        exact fits
  · intro more mem
    apply known_update
    rcases mem_append.mp mem with pre | isLast
    · exact lossless.known more pre
    · grind
  · intro more mem
    rcases mem_append.mp mem with pre | isLast
    · exact lossless.inside more pre
    · rw [mem_singleton.mp isLast]
      exact hin

theorem Lossless.copy (holding : call.phase = .holding) : (run.copy id call).Lossless := by
  have own := lossless.calls id call isCall
  have valid := lossless.valid
  have positions := valid.readPos_lt
  have room := valid.available_le
  have straight := valid.writePos_lt
  have size := own.size_lt
  have left : sub32 call.size call.count = call.size - call.count := sub32_eq own.count_le size
  have count : ∀ chunk ≤ call.size - call.count, (call.count + chunk) % 2 ^ 32 = call.count + chunk := by
    intro chunk few
    exact Nat.mod_eq_of_lt (by have := own.count_le; omega)
  unfold PipeRun.copy
  cases kind : call.kind with
  | read =>
    have chunk : call.chunk run.buf = min (min (call.size - call.count) run.buf.bytesAvailable) (bufferSize - run.buf.readPos) := by
      rw [PipeCall.chunk, kind]
      rw [PipeBuffer.readChunk_eq valid, left]
    generalize call.chunk run.buf = size at chunk
    have available : size ≤ run.buf.bytesAvailable := by omega
    have inBuffer : run.buf.readPos + size ≤ bufferSize := by omega
    have few : size ≤ call.size - call.count := by omega
    have countLe := own.count_le
    refine lossless.copied isCall rfl holding (own.exclusive holding) (PipeBuffer.valid_afterRead valid available) ?_ rfl rfl ?_ ?_ ?_ ?_
    · rw [← lossless.fifo, PipeBuffer.content_afterRead valid available inBuffer]
      simp [bytesOf, append_assoc]
    · grind
    · simp only [length_map, length_range]
      omega
    · simpa using inBuffer
    · rw [count size few, range_add, map_append, map_map]
      congr 1
      · apply map_congr_left
        intro k low
        have below := mem_range.mp low
        exact (if_neg (by omega)).symm
      · apply map_congr_left
        intro k low
        have below := mem_range.mp low
        simp only [Function.comp]
        rw [if_pos ⟨by omega, by omega⟩, Nat.add_sub_cancel_left]
  | write =>
    have chunk : call.chunk run.buf = min (min (call.size - call.count) (bufferSize - run.buf.bytesAvailable)) (bufferSize - run.buf.writePos) := by
      rw [PipeCall.chunk, kind]
      rw [PipeBuffer.writeChunk_eq valid, left]
    generalize call.chunk run.buf = size at chunk
    have fits : run.buf.bytesAvailable + size ≤ bufferSize := by omega
    have inBuffer : run.buf.writePos + size ≤ bufferSize := by omega
    have few : size ≤ call.size - call.count := by omega
    have countLe := own.count_le
    refine lossless.copied isCall rfl holding (own.exclusive holding) (PipeBuffer.valid_afterWrite valid fits) ?_ rfl rfl ?_ ?_ ?_ ?_
    · rw [PipeBuffer.content_afterWrite valid fits inBuffer, ← lossless.fifo]
      simp [bytesOf]
    · rw [length_map, length_range]
      exact count size few
    · simp only [length_map, length_range]
      omega
    · simpa using inBuffer
    · rw [count size few, range_add, map_append, map_map]
      rfl

theorem Lossless.goOn (holding : call.phase = .holding) : (run.goOn id call).Lossless := by
  have held := (lossless.calls id call isCall).exclusive holding
  have leaves : ∀ phase, phase = .sleeping ∨ phase = .returned call.count → (run.leave id call phase).Lossless := by
    intro phase isLeaving
    refine lossless.turned isCall ⟨rfl, rfl, rfl⟩ ?_ ?_ ?_
    · grind
    · grind
    · rintro res rfl
      rcases isLeaving with eq | eq
      · exact nomatch eq
      · exact PipePhase.returned.inj eq
  unfold PipeRun.goOn
  split
  · exact leaves _ (.inr rfl)
  · split
    · split
      · exact leaves _ (.inr rfl)
      · exact leaves _ (.inl rfl)
    · exact lossless.copy isCall holding

end

theorem Lossless.step {after : PipeRun Id} {op : PipeOp Id} (hs : run.step op = some after) : after.Lossless := by
  cases op with
  | start id kind flags size buffer =>
    simp only [PipeRun.step] at hs
    split at hs
    case h_1 => exact nomatch hs
    case h_2 isNew =>
      cases hs
      have lt : size % 2 ^ 32 < 2 ^ 32 := Nat.mod_lt _ (by decide)
      split
      · exact lossless.started isNew rfl lt (.inr rfl)
      · exact lossless.started isNew rfl lt (.inl rfl)
  | acquire id =>
    simp only [PipeRun.step] at hs
    split at hs
    case h_1 call free isCall =>
      split at hs
      · cases hs
        refine lossless.turned isCall ⟨rfl, rfl, rfl⟩ (fun _ => rfl) ?_ fun _ isReturned => nomatch isReturned
        intro other _ held
        exact nomatch free.symm.trans held
      · exact nomatch hs
    case h_2 => exact nomatch hs
  | goOn id =>
    simp only [PipeRun.step] at hs
    split at hs
    case h_1 call isCall =>
      split at hs
      case isTrue holding =>
        cases hs
        exact lossless.goOn isCall holding
      case isFalse => exact nomatch hs
    case h_2 => exact nomatch hs
  | closeWrite =>
    simp only [PipeRun.step] at hs
    split at hs
    · cases hs
      have valid := lossless.valid
      exact ⟨⟨valid.readPos_lt, valid.available_le, valid.writePos_eq⟩, lossless.fifo,
        fun id call isCall => by
          have own := lossless.calls id call isCall
          exact ⟨own.exclusive, own.size_lt, own.count_le, own.bytes, own.returned, own.inside⟩,
        lossless.known, lossless.inside⟩
    · exact nomatch hs

end

theorem reached_lossless (reached : Reaches step (fun _ _ => True) initial run) : run.Lossless :=
  Reaches.invariant reached Lossless initial_lossless fun _ _ _ lossless _ hs => lossless.step hs

/-- A writer and a reader of two bytes. -/
theorem reached_lossless_two : ∃ run : PipeRun Bool, bytesOf run.chunks (·.kind == .read) = [7, 7] ∧ run.Lossless := by
  let ops : List (PipeOp Bool) := [.start true .write 1 2 fun _ => 7, .acquire true, .start false .read 0 2 fun _ => 0, .goOn true,
    .goOn true, .acquire false, .goOn false, .goOn false]
  have ran : (runAll step (fun _ _ => True) ops (initial : PipeRun Bool)).isSome = true ∧
      ∀ run ∈ runAll step (fun _ _ => True) ops (initial : PipeRun Bool), bytesOf run.chunks (·.kind == .read) = [7, 7] := by
    decide +kernel
  obtain ⟨run, hf⟩ := Option.isSome_iff_exists.mp ran.1
  exact ⟨run, ran.2 run hf, reached_lossless (Reaches.start.runAll hf)⟩

end PipeRun

end RosKernel.Filesys
