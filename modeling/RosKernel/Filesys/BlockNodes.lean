import RosKernel.Filesys.Partition
import RosKernel.Library.Bytes

/-! The node of a block device, `DevFS::Read`, `DevFS::Write` and `DevFS::Seek` of
`kernel/filesys/devfs/devfs.cpp`.

A request covers whole sectors, which a buffer of the device holds. Its size is counted in 64 bits,
and compared with the offset of the request in 32.
-/

set_option autoImplicit false

namespace RosKernel.Filesys.BlockNode

open Memory Library List

/-- A device and the position of the file that is open on it. -/
structure DeviceState where
  content : Bytes
  position : Nat

def bytesAt (content : Bytes) (pos size : Nat) : List UInt8 := (range size).map fun k => content (pos + k)

def overwritten (content : Bytes) (pos : Nat) (data : List UInt8) : Bytes := fun byte =>
  if pos ≤ byte ∧ byte < pos + data.length then data.getD (byte - pos) 0 else content byte

/-- A transfer succeeds inside the device; the buffer ends behind the last sector. -/
def readSectors (sectors : Nat) (content : Bytes) (first count : Nat) : Option Bytes :=
  if first + count ≤ sectors then some fun k => if k < 512 * count then content (512 * first + k) else 0 else none

def writeSectors (sectors : Nat) (content : Bytes) (first count : Nat) (buf : Bytes) : Option Bytes :=
  if first + count ≤ sectors then
    some fun byte => if 512 * first ≤ byte ∧ byte < 512 * (first + count) then buf (byte - 512 * first) else content byte
  else none

inductive Op where
  | seek (position : Nat)
  | read (size : Nat)
  | write (data : List UInt8)

/-- Positions have 64 bits, sizes have 32. -/
def Op.Valid : Op → Prop
  | .seek position => position < 2 ^ 64
  | .read size => size < 2 ^ 32
  | .write data => data.length < 2 ^ 32

section

variable (sectors : Nat) (state : DeviceState)

def seek (position : Nat) : DeviceState := { state with position }

def read (size : Nat) : DeviceState × List UInt8 :=
  if size = 0 then (state, [])
  else
    let (firstLBA, count) := devFsRequest state.position size
    let offset := state.position % 512
    match readSectors sectors state.content firstLBA count with
    | none => (state, [])
    | some buf =>
      let available := count * 512
      if available % 2 ^ 32 ≤ offset then (state, [])
      else
        let maxCopy := (available - offset) % 2 ^ 32
        let toCopy := if maxCopy < size then maxCopy else size
        ({ state with position := add64 state.position toCopy }, bytesAt buf offset toCopy)

def write (data : List UInt8) : DeviceState × Nat :=
  if data.length = 0 then (state, 0)
  else
    let (firstLBA, count) := devFsRequest state.position data.length
    let offset := state.position % 512
    let bytesNeeded := count * 512
    let buf :=
      if offset = 0 ∧ bytesNeeded ≤ data.length then
        let toCopy := if bytesNeeded % 2 ^ 32 < data.length then bytesNeeded % 2 ^ 32 else data.length
        some (overwritten (fun _ => 0) 0 (data.take toCopy))
      else (readSectors sectors state.content firstLBA count).map fun buf => overwritten buf offset data
    match buf.bind (writeSectors sectors state.content firstLBA count) with
    | none => (state, 0)
    | some content => ({ content, position := add64 state.position data.length }, data.length)

def step : Op → DeviceState
  | .seek position => seek state position
  | .read size => (read sectors state size).1
  | .write data => (write sectors state data).1

/-- A call transfers all its bytes or nothing, and transfers where the device has them. -/
def Transfers : Op → Prop
  | .seek _ => True
  | .read size =>
    let all := ({ state with position := state.position + size }, bytesAt state.content state.position size)
    (read sectors state size = (state, []) ∨ read sectors state size = all) ∧
      (0 < size → state.position + size ≤ 512 * sectors → read sectors state size = all)
  | .write data =>
    let all := (⟨overwritten state.content state.position data, state.position + data.length⟩, data.length)
    (write sectors state data = (state, 0) ∨ write sectors state data = all) ∧
      (0 < data.length → state.position + data.length ≤ 512 * sectors → write sectors state data = all)

/-- A read that the device can serve covers fewer than `2 ^ 23` sectors. -/
def Small : Op → Prop
  | .read size => size = 0 ∨ 512 * sectors < state.position + size ∨ state.position % 512 + size ≤ 2 ^ 32 - 512
  | _ => True

end

/-- A property of every call of a run. -/
def Throughout (sectors : Nat) (holds : DeviceState → Op → Prop) : DeviceState → List Op → Prop
  | _, [] => True
  | state, op :: rest => holds state op ∧ Throughout sectors holds (step sectors state op) rest

section

variable {sectors pos size : Nat} (few : sectors < 2 ^ 40) (lt : pos < 2 ^ 64) (short : size < 2 ^ 32) (some_bytes : 0 < size)
include few lt short some_bytes

theorem request_fits : (devFsRequest pos size).1 + (devFsRequest pos size).2 ≤ sectors ↔ pos + size ≤ 512 * sectors := by
  unfold devFsRequest add64 sub64
  grind

omit lt in
theorem request_eq (fits : pos + size ≤ 512 * sectors) :
    devFsRequest pos size = (pos / 512, (pos % 512 + size + 511) / 512) := by
  unfold devFsRequest add64 sub64
  grind

end

section

variable {sectors : Nat} {state : DeviceState} (few : sectors < 2 ^ 40) (lt : state.position < 2 ^ 64)
include few lt

theorem read_outside {size : Nat} (short : size < 2 ^ 32) (out : size = 0 ∨ 512 * sectors < state.position + size) :
    read sectors state size = (state, []) := by
  unfold read
  split
  · rfl
  · next some_bytes =>
    have outside := mt (request_fits few lt short (Nat.pos_of_ne_zero some_bytes)).mp (by omega)
    simp only [readSectors, if_neg outside]

omit lt in
/-- A read of the bytes on the device; only a small one gets what it asks for. -/
theorem read_inside {size : Nat} (short : size < 2 ^ 32) (some_bytes : 0 < size) (fits : state.position + size ≤ 512 * sectors) :
    read sectors state size =
        ({ state with position := state.position + size }, bytesAt state.content state.position size) ↔
      state.position % 512 + size ≤ 2 ^ 32 - 512 := by
  have covers : state.position / 512 + (state.position % 512 + size + 511) / 512 ≤ sectors := by omega
  unfold read
  rw [if_neg (by omega), request_eq few short some_bytes fits]
  simp only [readSectors, if_pos covers]
  constructor
  · intro eq
    -- A transfer of `2 ^ 23` sectors or more has its size cut to less than is asked for.
    have length := congrArg (fun result => result.2.length) eq
    by_contra long
    split at length
    · simp only [bytesAt, length_nil, length_map, length_range] at length
      omega
    · simp only [bytesAt, length_map, length_range] at length
      grind
  · intro small
    rw [if_neg (by omega), if_neg (by omega), add64, Nat.mod_eq_of_lt (by omega)]
    congr 1
    apply map_congr_left
    intro k mem
    have lt := mem_range.mp mem
    simp only [← Nat.add_assoc, Nat.div_add_mod]
    exact if_pos (by omega)

theorem write_outside {data : List UInt8} (short : data.length < 2 ^ 32)
    (out : data.length = 0 ∨ 512 * sectors < state.position + data.length) : write sectors state data = (state, 0) := by
  unfold write
  split
  · rfl
  · next some_bytes =>
    have outside := mt (request_fits few lt short (Nat.pos_of_ne_zero some_bytes)).mp (by omega)
    have refused : writeSectors sectors state.content (devFsRequest state.position data.length).1
        (devFsRequest state.position data.length).2 = fun _ => none := funext fun _ => if_neg outside
    simp only [refused, Option.bind_fun_none]

omit lt in
theorem write_inside {data : List UInt8} (short : data.length < 2 ^ 32) (some_bytes : 0 < data.length)
    (fits : state.position + data.length ≤ 512 * sectors) : write sectors state data =
      (⟨overwritten state.content state.position data, state.position + data.length⟩, data.length) := by
  have covers : state.position / 512 + (state.position % 512 + data.length + 511) / 512 ≤ sectors := by omega
  unfold write
  rw [if_neg (by omega), request_eq few short some_bytes fits]
  simp only [readSectors, if_pos covers, Option.map_some, add64,
    Nat.mod_eq_of_lt (show state.position + data.length < 2 ^ 64 by omega)]
  by_cases whole : state.position % 512 = 0 ∧ (state.position % 512 + data.length + 511) / 512 * 512 ≤ data.length
  · have size : (state.position % 512 + data.length + 511) / 512 * 512 = data.length := by omega
    rw [if_pos whole, size, Nat.mod_eq_of_lt short, if_neg (Nat.lt_irrefl _), take_length, Option.bind_some, writeSectors,
      if_pos covers]
    refine Prod.ext (congrArg (DeviceState.mk · _) (funext fun byte => ?_)) rfl
    unfold overwritten
    grind
  · rw [if_neg whole, Option.bind_some, writeSectors, if_pos covers]
    refine Prod.ext (congrArg (DeviceState.mk · _) (funext fun byte => ?_)) rfl
    unfold overwritten
    grind

end

theorem transfers_iff {sectors : Nat} {state : DeviceState} {op : Op} (few : sectors < 2 ^ 40) (lt : state.position < 2 ^ 64)
    (valid : op.Valid) : Transfers sectors state op ↔ Small sectors state op := by
  match op with
  | .seek position => exact .rfl
  | .read size =>
    by_cases out : size = 0 ∨ 512 * sectors < state.position + size
    · refine iff_of_true ⟨.inl (read_outside few lt valid out), fun some_bytes fits => ?_⟩ (by simp only [Small]; omega)
      omega
    · have inside := @read_inside sectors state few size valid (by omega) (by omega)
      have result : Transfers sectors state (.read size) ↔ read sectors state size =
          ({ state with position := state.position + size }, bytesAt state.content state.position size) :=
        ⟨fun transfers => transfers.2 (by omega) (by omega), fun all => ⟨.inr all, fun _ _ => all⟩⟩
      rw [result, inside, Small]
      omega
  | .write data =>
    refine iff_of_true ?_ trivial
    by_cases out : data.length = 0 ∨ 512 * sectors < state.position + data.length
    · exact ⟨.inl (write_outside few lt valid out), fun some_bytes fits => by omega⟩
    · have all := @write_inside sectors state few data valid (by omega) (by omega)
      exact ⟨.inr all, fun _ _ => all⟩

theorem step_position_lt {sectors : Nat} {state : DeviceState} {op : Op} (lt : state.position < 2 ^ 64) (valid : op.Valid) :
    (step sectors state op).position < 2 ^ 64 := by
  match op with
  | .seek position => exact valid
  | .read size =>
    simp only [step, read]
    split
    · exact lt
    · split
      · exact lt
      · split
        · exact lt
        · exact Nat.mod_lt _ (by decide)
  | .write data =>
    simp only [step, write]
    split
    · exact lt
    · split
      · exact lt
      · exact Nat.mod_lt _ (by decide)

/-- The calls of a run transfer what they are asked for if and only if each read is small. -/
theorem transfers_throughout_iff {sectors : Nat} {state : DeviceState} {ops : List Op} (few : sectors < 2 ^ 40)
    (lt : state.position < 2 ^ 64) (valid : ∀ op ∈ ops, op.Valid) :
    Throughout sectors (Transfers sectors) state ops ↔ Throughout sectors (Small sectors) state ops := by
  induction ops generalizing state with
  | nil => exact .rfl
  | cons op rest ih =>
    rw [forall_mem_cons] at valid
    exact and_congr (transfers_iff few lt valid.1) (ih (step_position_lt lt valid.1) valid.2)

theorem transfers_throughout_copy : Throughout 8 (Transfers 8) ⟨fun _ => 0, 0⟩ [.seek 510, .write [1, 2, 3], .read 700] := by
  refine (transfers_throughout_iff (by decide) (by decide) ?_).mpr ⟨trivial, trivial, .inr (.inr (by decide)), trivial⟩
  intro op mem
  simp only [mem_cons, not_mem_nil, or_false] at mem
  obtain rfl | rfl | rfl := mem <;> simp [Op.Valid]

/-- A disk of 4 GiB gives nothing for a request of its first `2 ^ 23` sectors. -/
theorem read_cut : ¬ Throughout (2 ^ 23) (Transfers (2 ^ 23)) ⟨fun _ => 0, 0⟩ [.read (2 ^ 32 - 511)] := by
  intro transfers
  have all := transfers.1.2 (by decide) (by decide)
  exact absurd ((read_inside (by decide) (by decide) (by decide) (by decide)).mp all) (by decide)

end RosKernel.Filesys.BlockNode
