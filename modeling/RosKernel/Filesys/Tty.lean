import Mathlib.Data.List.TakeWhile
import RosKernel.Library.Bytes
import RosKernel.Library.Runs

/-! The input side of a terminal, `kernel/filesys/devfs/std_util_tty_devices.cpp`, and what becomes of the bytes it stores.

What is echoed is left out, but an echo waits while the output is stopped: then a signal character
discards the buffer later or never. A reader runs one round of its outer loop at a time.
-/

set_option autoImplicit false

namespace RosKernel.Filesys

open Library List

def lineBufferSize : Nat := 1024

def carriageReturn : UInt8 := 0x0D

def newline : UInt8 := 0x0A

/-- The bits and the control characters of `m_Termios` that the input side reads. -/
structure Termios where
  ixon : Bool
  icrnl : Bool
  igncr : Bool
  icanon : Bool
  isig : Bool
  echo : Bool
  vintr : UInt8
  vquit : UInt8
  veof : UInt8
  vstart : UInt8
  vstop : UInt8
deriving DecidableEq

structure Tty where
  outputStopped : Bool
  termios : Termios
  lineBuffer : Bytes
  lineReadPos : Nat
  lineWritePos : Nat

/-- What `OnInput` did with a byte. -/
inductive InputEffect where
  | ignored
  | stored (c : UInt8)
  | discarded
  | suspended
deriving DecidableEq

/-- `TTY::TTY()`. -/
def Tty.initial : Tty where
  outputStopped := false
  termios := ⟨true, true, false, true, true, true, 0x03, 0x1C, 0x04, 0x11, 0x13⟩
  lineBuffer := fun _ => 0
  lineReadPos := 0
  lineWritePos := 0

namespace Tty

section

variable (tty : Tty)
include tty

def unread : List UInt8 :=
  (range (tty.lineWritePos - tty.lineReadPos)).map fun k => tty.lineBuffer (tty.lineReadPos + k)

def discard : Tty := { tty with lineReadPos := 0, lineWritePos := 0 }

/-- Whether a stored byte ends a line, as the search for a line compares it. -/
def lineEnd (c : UInt8) : Bool := c == newline || c == tty.termios.veof

/-- Whether a byte ends the input, as the copy compares it: there it is a signed character. -/
def eofChar (c : UInt8) : Bool := c == tty.termios.veof && c.toNat < 128

def onInput (c : UInt8) (foreground : Bool) : Tty × InputEffect :=
  if tty.termios.ixon && c == tty.termios.vstop then ({ tty with outputStopped := true }, .ignored)
  else if tty.termios.ixon && c == tty.termios.vstart then (tty, .ignored)
  else if c == 0 then (tty, .ignored)
  else if tty.termios.isig && (c == tty.termios.vintr || c == tty.termios.vquit) then
    if !foreground then (tty, .ignored)
    else if tty.termios.echo && tty.outputStopped then (tty, .suspended)
    else (tty.discard, .discarded)
  else if c == carriageReturn && tty.termios.igncr then (tty, .ignored)
  else
    let c := if c == carriageReturn && tty.termios.icrnl then newline else c
    if lineBufferSize - 1 ≤ tty.lineWritePos then (tty, .ignored)
    else ({ tty with
      lineBuffer := Function.update tty.lineBuffer tty.lineWritePos c
      lineWritePos := tty.lineWritePos + 1 }, .stored c)

def resetIfRead : Tty := if tty.lineReadPos = tty.lineWritePos then tty.discard else tty

def dataReady (canonical : Bool) : Bool :=
  if canonical then tty.unread.any tty.lineEnd else 1 ≤ tty.lineWritePos - tty.lineReadPos

end

end Tty

/-- How the copy of a round ends: at an end of input, at the end of a line, or with nothing left to copy. -/
inductive CopyEnd where
  | eof (c : UInt8)
  | line
  | ranOut
deriving DecidableEq

namespace Tty

/-- The inner loop of `Read`, with room for `left` more bytes. -/
def copyBytes (canonical : Bool) : Nat → Tty → Tty × List UInt8 × CopyEnd
  | 0, tty => (tty, [], .ranOut)
  | left + 1, tty =>
    if tty.lineReadPos < tty.lineWritePos then
      let c := tty.lineBuffer tty.lineReadPos
      let advanced := { tty with lineReadPos := tty.lineReadPos + 1 }
      if tty.eofChar c then (advanced, [], .eof c)
      else if canonical && c == newline then (advanced, [c], .line)
      else
        let (after, bytes, ending) := copyBytes canonical left advanced
        (after, c :: bytes, ending)
    else (tty, [], .ranOut)

end Tty

/-- A call of `Read` that has not returned. -/
structure TtyReader where
  canonical : Bool
  size : Nat
  copied : List UInt8

/-- What became of a byte that left the buffer. -/
inductive Fate where
  | copied
  | eof (canonical : Bool)
  | discarded
deriving DecidableEq

/-- The terminal and its readers; beside them what was stored, what became of it and what reads returned. -/
structure TtyRun (Id : Type) where
  tty : Tty
  readers : Id → Option TtyReader
  suspended : Nat
  stored : List UInt8
  consumed : List (UInt8 × Fate)
  results : List (Bool × List UInt8)
  flowStopped : Bool

inductive TtyOp (Id : Type) where
  | input (c : UInt8) (foreground : Bool)
  | resume
  | read (id : Id) (size : Nat)
  | round (id : Id) (signals : Bool)
  | setTermios (termios : Termios)

namespace TtyRun

variable {Id : Type} [DecidableEq Id]

def initial : TtyRun Id := ⟨Tty.initial, fun _ => none, 0, [], [], [], false⟩

/-- The buffer is discarded. -/
def discardAll (run : TtyRun Id) : TtyRun Id := { run with
  tty := run.tty.discard
  consumed := run.consumed ++ run.tty.unread.map fun c => (c, .discarded) }

/-- What the flow control characters so far ask for. -/
def flowAfter (run : TtyRun Id) (c : UInt8) : Bool :=
  if run.tty.termios.ixon && c == run.tty.termios.vstop then true
  else if run.tty.termios.ixon && c == run.tty.termios.vstart then false
  else run.flowStopped

def input (run : TtyRun Id) (c : UInt8) (foreground : Bool) : TtyRun Id :=
  let flowStopped := run.flowAfter c
  match run.tty.onInput c foreground with
  | (tty, .ignored) => { run with tty, flowStopped }
  | (tty, .stored c) => { run with tty, flowStopped, stored := run.stored ++ [c] }
  | (_, .discarded) => { run.discardAll with flowStopped }
  | (tty, .suspended) => { run with tty, flowStopped, suspended := run.suspended + 1 }

/-- The call returns. -/
def finish (run : TtyRun Id) (id : Id) (reader : TtyReader) (bytes : List UInt8) : TtyRun Id := { run with
  readers := Function.update run.readers id none
  results := run.results ++ [(reader.canonical, reader.copied ++ bytes)] }

/-- One round of the outer loop of `Read`. -/
def round (run : TtyRun Id) (id : Id) (reader : TtyReader) (signals : Bool) : TtyRun Id :=
  if signals then { run with readers := Function.update run.readers id none }
  else if !run.tty.dataReady reader.canonical then run
  else
    let (copying, bytes, ending) := run.tty.copyBytes reader.canonical (reader.size - reader.copied.length)
    let tty := copying.resetIfRead
    let consumed := run.consumed ++ bytes.map fun c => (c, .copied)
    match ending with
    | .eof c => { run with tty, consumed := consumed ++ [(c, Fate.eof reader.canonical)] }.finish id reader bytes
    | .line => { run with tty, consumed }.finish id reader bytes
    | .ranOut =>
      if !reader.canonical && tty.lineWritePos ≤ tty.lineReadPos || reader.size ≤ reader.copied.length + bytes.length then
        { run with tty, consumed }.finish id reader bytes
      else { run with tty, consumed, readers := Function.update run.readers id (some { reader with copied := reader.copied ++ bytes }) }

def step (run : TtyRun Id) : TtyOp Id → Option (TtyRun Id)
  -- the kernel panics
  | .input 0x07 _ => none
  | .input c foreground => some (run.input c foreground)
  | .resume => if run.suspended = 0 then none else some { run.discardAll with suspended := run.suspended - 1 }
  | .read id size =>
    match run.readers id with
    | some _ => none
    | none =>
      if size = 0 then some run
      else some { run with readers := Function.update run.readers id (some ⟨run.tty.termios.icanon, size, []⟩) }
  | .round id signals =>
    match run.readers id with
    | none => none
    | some reader => some (run.round id reader signals)
  | .setTermios termios => some { run with tty := { run.tty with termios } }

end TtyRun

variable {tty after : Tty} {canonical : Bool} {left : Nat} {eof : UInt8 → Bool}

/-- The copy of a round, on the bytes alone: what it copies, how it ends and what stays. -/
def splitRound (eof : UInt8 → Bool) (canonical : Bool) : Nat → List UInt8 → List UInt8 × CopyEnd × List UInt8
  | 0, waiting => ([], .ranOut, waiting)
  | _ + 1, [] => ([], .ranOut, [])
  | left + 1, c :: waiting =>
    if eof c then ([], .eof c, waiting)
    else if canonical && c == newline then ([c], .line, waiting)
    else
      let (bytes, ending, rest) := splitRound eof canonical left waiting
      (c :: bytes, ending, rest)

/-- The byte that is taken and not copied. -/
def CopyEnd.dropped : CopyEnd → List UInt8
  | .eof c => [c]
  | _ => []

theorem splitRound_split (eof : UInt8 → Bool) (canonical : Bool) (left : Nat) (wait : List UInt8) :
    wait = (splitRound eof canonical left wait).1 ++ (splitRound eof canonical left wait).2.1.dropped ++
      (splitRound eof canonical left wait).2.2 := by
  induction left generalizing wait with
  | zero => rfl
  | succ left ih =>
    cases wait with
    | nil => rfl
    | cons c wait =>
      unfold splitRound
      split
      · rfl
      · split
        · rfl
        · exact congrArg (c :: ·) (ih wait)

theorem splitRound_line (eof : UInt8 → Bool) (left : Nat) (wait : List UInt8) :
    newline ∉ (splitRound eof true left wait).1.dropLast := by
  induction left generalizing wait with
  | zero => exact not_mem_nil
  | succ left ih =>
    cases wait with
    | nil => exact not_mem_nil
    | cons c wait =>
      unfold splitRound
      split
      · exact not_mem_nil
      · split
        · exact not_mem_nil
        · rename_i notLine
          have ne : newline ≠ c := by
            rintro rfl
            simp at notLine
          have rest := ih wait
          dsimp only
          cases copied : (splitRound eof true left wait).1 with
          | nil => exact not_mem_nil
          | cons d more =>
            rw [copied] at rest
            rw [dropLast_cons_cons, mem_cons, not_or]
            exact ⟨ne, rest⟩

theorem splitRound_dropped (wait : List UInt8) (none : ∀ c ∈ wait.take left, eof c = false) :
    (splitRound eof canonical left wait).2.1.dropped = [] := by
  induction left generalizing wait with
  | zero => rfl
  | succ left ih =>
    cases wait with
    | nil => rfl
    | cons c wait =>
      rw [take_succ_cons, forall_mem_cons] at none
      unfold splitRound
      rw [none.1, if_neg Bool.false_ne_true]
      split
      · rfl
      · exact ih wait none.2

theorem splitRound_ranOut (wait : List UInt8) (ending : (splitRound eof canonical left wait).2.1 = .ranOut) :
    (splitRound eof canonical left wait).1.length = left ∨ (splitRound eof canonical left wait).2.2 = [] := by
  induction left generalizing wait with
  | zero => exact .inl rfl
  | succ left ih =>
    cases wait with
    | nil => exact .inr rfl
    | cons c wait =>
      unfold splitRound at ending ⊢
      split at ending
      · exact nomatch ending
      · rename_i notEof
        rw [if_neg notEof]
        split at ending
        · exact nomatch ending
        · grind

theorem splitRound_ready {veof : UInt8} (wait : List UInt8)
    (ready : wait.any (fun c => c == newline || c == veof) = true)
    (seen : ∀ c ∈ (wait.takeWhile (· != newline)).take left, c = veof → eof c = true)
    (ending : (splitRound eof true left wait).2.1 = .ranOut) : (splitRound eof true left wait).1.length = left := by
  induction left generalizing wait with
  | zero => rfl
  | succ left ih =>
    cases wait with
    | nil => exact nomatch ready
    | cons c wait =>
      unfold splitRound at ending ⊢
      split at ending
      · exact nomatch ending
      · rename_i notEof
        rw [if_neg notEof]
        split at ending
        · exact nomatch ending
        · rename_i notLine
          rw [if_neg notLine]
          have ne : (c != newline) = true := by simpa using notLine
          rw [takeWhile_cons, if_pos ne, take_succ_cons, forall_mem_cons] at seen
          have notVeof : c ≠ veof := fun eq => notEof (seen.1 eq)
          have later : wait.any (fun c => c == newline || c == veof) = true := by
            simpa [bne_iff_ne.mp ne, notVeof] using ready
          exact congrArg (· + 1) (ih wait later seen.2 ending)

theorem splitRound_rest (eof : UInt8 → Bool) (canonical : Bool) (left : Nat) (wait : List UInt8) :
    (splitRound eof canonical left wait).2.2 =
      wait.drop (min left (wait.findIdx (fun c => eof c || canonical && c == newline) + 1)) := by
  induction left generalizing wait with
  | zero => simp [splitRound]
  | succ left ih =>
    cases wait with
    | nil => simp [splitRound]
    | cons c wait =>
      unfold splitRound
      rw [findIdx_cons]
      by_cases isEof : eof c = true
      · simp [isEof]
      · by_cases isLine : (canonical && c == newline) = true
        · simp [isEof, isLine]
        · grind

namespace Tty

theorem unread_cons (hin : tty.lineReadPos < tty.lineWritePos) :
    tty.unread = tty.lineBuffer tty.lineReadPos :: Tty.unread { tty with lineReadPos := tty.lineReadPos + 1 } := by
  unfold unread
  rw [show tty.lineWritePos - tty.lineReadPos = tty.lineWritePos - (tty.lineReadPos + 1) + 1 by omega, range_succ_eq_map,
    map_cons, map_map]
  congr 1
  apply map_congr_left
  intro k _
  simp only [Function.comp, Nat.succ_eq_add_one]
  congr 1
  omega

theorem unread_nil (empty : tty.lineWritePos ≤ tty.lineReadPos) : tty.unread = [] := by
  unfold unread
  rw [Nat.sub_eq_zero_of_le empty]
  rfl

theorem unread_ne_nil (hin : tty.lineReadPos < tty.lineWritePos) : tty.unread ≠ [] := by
  rw [unread_cons hin]
  exact cons_ne_nil _ _

theorem unread_length (tty : Tty) : tty.unread.length = tty.lineWritePos - tty.lineReadPos := by simp [unread]

theorem copyBytes_eq (ord : tty.lineReadPos ≤ tty.lineWritePos) : ∃ pos,
    tty.lineReadPos ≤ pos ∧ pos ≤ tty.lineWritePos ∧ (tty.copyBytes canonical left).1 = { tty with lineReadPos := pos } ∧
      ((tty.copyBytes canonical left).2.1, (tty.copyBytes canonical left).2.2, Tty.unread { tty with lineReadPos := pos }) =
        splitRound tty.eofChar canonical left tty.unread := by
  induction left generalizing tty with
  | zero => exact ⟨tty.lineReadPos, Nat.le_refl _, ord, rfl, rfl⟩
  | succ left ih =>
    unfold copyBytes
    by_cases hin : tty.lineReadPos < tty.lineWritePos
    · rw [if_pos hin, unread_cons hin]
      unfold splitRound
      dsimp only
      split
      · grind
      · split
        · grind
        · obtain ⟨pos, low, high, eq, split_⟩ := @ih { tty with lineReadPos := tty.lineReadPos + 1 } hin
          refine ⟨pos, Nat.le_of_succ_le low, high, eq, ?_⟩
          rw [← show _ = splitRound tty.eofChar canonical left _ from split_]
    · rw [if_neg hin, unread_nil (Nat.not_lt.mp hin)]
      refine ⟨tty.lineReadPos, Nat.le_refl _, ord, rfl, ?_⟩
      rw [unread_nil (Nat.not_lt.mp hin)]
      rfl

end Tty

end RosKernel.Filesys
