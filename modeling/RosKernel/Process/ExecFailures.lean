import RosKernel.Memory.Allocates
import RosKernel.Process.DeepCopy
import RosKernel.Process.Elf
import RosKernel.Process.ExecStack

/-! `Sys_Execve` up to the stack of the new program, `kernel/usrlndtrnstn/syscall/process.cpp`, and what it leaves behind
when it fails. There is a current task. What `VFS_Open`, `Read` and `Kmalloc::Alloc` answer comes from outside.

Until the path is copied nothing has happened. The name of the task changes next, and is not set back. From the new
address space on every failure does harm: after a bad image the top-level table is given back twice, and without a whole
stack the address space stays allocated.
-/

set_option autoImplicit false

namespace RosKernel.Process

open Library Memory List Option

/-- The task that calls. `name` is an array of 32 bytes. -/
structure Caller where
  name : List UInt8
  cr3 : Nat
  space : AddressSpace

/-- A file that `VFS_Open` finds: its size, what `Read` returns, and what the buffer holds then. -/
structure ExecFile where
  size : Nat
  bytesRead : Nat
  image : Bytes

structure ExecCall where
  pathPtr : Nat
  openFile : List UInt8 → Option ExecFile
  bufferOk : Nat → Bool

/-- `buffers` and `files` count what the call holds of the heap and of the file system. -/
structure ExecState where
  caller : Caller
  memory : PageMemory
  cursor : Nat
  buffers : Nat
  files : Nat

namespace ExecState

variable (state : ExecState)

def opened : ExecState := { state with files := state.files + 1 }

def closed : ExecState := { state with files := state.files - 1 }

def bufferTaken : ExecState := { state with buffers := state.buffers + 1 }

def bufferFreed : ExecState := { state with buffers := state.buffers - 1 }

end ExecState

inductive ExecAnswer where
  /-- The call returns -1. -/
  | failed
  /-- There is a stack for the new program. -/
  | ready (newCR3 entry imageBase imageEnd : Nat) (stackPhys : List Nat)

def cString (buffer : List UInt8) : List UInt8 := buffer.takeWhile (· ≠ 0)

def slash : UInt8 := 0x2F

/-- The path that is copied, with its last byte set to zero. -/
def kernelPath (bytes : List UInt8) : List UInt8 := cString (bytes.take 255)

/-- `String::Basename` into an array of `outSize` bytes. -/
def basename (fullPath : List UInt8) (outSize : Nat) : List UInt8 :=
  (fullPath.reverse.takeWhile (· ≠ slash)).reverse.take (outSize - 1)

/-- `String::Strncpy`, which fills up with zeros. -/
def strncpy (src : List UInt8) (n : Nat) : List UInt8 := src.take n ++ replicate (n - src.length) 0

def taskName (path : List UInt8) : List UInt8 := strncpy (basename path 64) 31 ++ [0]

section

variable (kernelPML4 fuel : Nat)

/-- From the stack on. -/
def execStack (newCR3 entry imageBase imageEnd : Nat) (state : ExecState) : ExecAnswer × ExecState :=
  match mapStack newCR3 state.memory with
  | (none, memory) => (.failed, { state with memory := memory })
  | (some stackPhys, memory) => (.ready newCR3 entry imageBase imageEnd stackPhys, { state with memory := memory })

/-- From the new address space on, with the file in a buffer. An entry with its highest bit set counts as an error. `none` if the
call does not return. -/
def execImage (image : Bytes) (state : ExecState) : Option (ExecAnswer × ExecState) :=
  let (newCR3, memory) := createUserAddressSpace kernelPML4 state.memory
  if newCR3 = 0 then some (.failed, { state.bufferFreed with memory := memory })
  else
    let loaded := loadELF64 fuel image state.cursor newCR3 memory
    let state := { state.bufferFreed with memory := loaded.memory, cursor := loaded.cursor }
    let abandoned := { state with memory := (freeUserAddressSpace newCR3 loaded.memory).free newCR3 }
    match loaded.result with
    | none => none
    | some (.error _) => some (.failed, abandoned)
    | some (.ok entry) =>
      if 2 ^ 63 ≤ entry then some (.failed, abandoned)
      else some (execStack newCR3 entry loaded.imageBase loaded.imageEnd state)

/-- From the open file on. -/
def execFile (call : ExecCall) (file : ExecFile) (state : ExecState) : Option (ExecAnswer × ExecState) :=
  if !call.bufferOk file.size then some (.failed, state.closed)
  else
    let state := state.bufferTaken
    if file.bytesRead ≠ file.size then some (.failed, state.bufferFreed.closed)
    else execImage kernelPML4 fuel file.image state.closed

def sysExecve (call : ExecCall) (state : ExecState) : Option (ExecAnswer × ExecState) :=
  let (copied, bytes) := state.memory.copyFromUser state.caller.cr3 call.pathPtr 256
  if !copied then some (.failed, state)
  else
    let path := kernelPath bytes
    let state := { state with caller.name := taskName path }
    match call.openFile path with
    | none => some (.failed, state)
    | some file => execFile kernelPML4 fuel call file state.opened

end

section

variable {memory memory' : PageMemory} {image : Bytes} {place : ImagePlace} {pml4 : Nat}

end

section

variable {visit : Nat → PageMemory → PageMemory}

end

section

variable {kernelPML4 fuel : Nat} {call : ExecCall} {state after : ExecState}

/-- The caller is as it was, the frames in use are those that were, none is given back twice, and no buffer is kept. -/
structure Intact (before after : ExecState) : Prop where
  caller : after.caller = before.caller
  memory : ∀ frame, Held before.memory frame → after.memory.words frame = before.memory.words frame
  frames : ∀ addr, after.memory.InUse addr ↔ before.memory.InUse addr
  once : ∃ log, after.memory.freed = before.memory.freed ++ log ∧ log.Nodup
  buffers : after.buffers = before.buffers

/-- There is no such file, or no buffer for it, or the read is short, or no frame for a table. -/
def StopsEarly (call : ExecCall) (path : List UInt8) (memory : PageMemory) : Prop :=
  match call.openFile path with
  | none => True
  | some file => call.bufferOk file.size = false ∨ file.bytesRead ≠ file.size ∨ memory.allocPage.1 = 0

/-- The path cannot be copied; or the task has the name already that it would get, and the call stops early. -/
def StopsClean (call : ExecCall) (state : ExecState) : Prop :=
  let (copied, bytes) := state.memory.copyFromUser state.caller.cr3 call.pathPtr 256
  copied = false ∨ taskName (kernelPath bytes) = state.caller.name ∧ StopsEarly call (kernelPath bytes) state.memory

theorem Intact.refl (state : ExecState) : Intact state state := by
  constructor
  · rfl
  · exact fun _ _ => rfl
  · exact fun _ => .rfl
  · exact ⟨[], (append_nil _).symm, nodup_nil⟩
  · rfl

end

end RosKernel.Process
