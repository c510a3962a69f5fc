import Mathlib.Data.List.TakeWhile
import RosKernel.Ext2.ReadDir

/-! `Sys_Getdents64`, `kernel/usrlndtrnstn/syscall/fs.cpp`, on a directory of an EXT2 volume.

Whether memory was there and whether the copy to the user went well are arguments of a call.
-/

set_option autoImplicit false

namespace RosKernel.Ext2

open Library List

/-- `linux_dirent64`; the name ends with a zero byte. -/
structure Dirent where
  dIno : Nat
  dOff : Nat
  dReclen : Nat
  dType : UInt8
  dName : List UInt8

def offsetName : Nat := 19

def dtUnknown : UInt8 := 0

def littleEndian (width value : Nat) : List UInt8 := (range width).map fun i => UInt8.ofNat (value / 256 ^ i)

def Dirent.bytes (record : Dirent) : List UInt8 :=
  littleEndian 8 record.dIno ++ littleEndian 8 record.dOff ++ littleEndian 2 record.dReclen ++ [record.dType] ++
    record.dName ++ [0] ++ replicate (record.dReclen - (offsetName + record.dName.length + 1)) 0

/-- The length of a record, a multiple of 8. -/
def reclen (name : List UInt8) : Nat := (offsetName + name.length + 1 + 7) / 8 * 8

def dirent (dOff : Nat) (name : List UInt8) : Dirent := ⟨1, dOff + 1, reclen name % 2 ^ 16, dtUnknown, name⟩

/-- The loop that turns names into records. -/
def convert (inp : List UInt8) (outRemain dOff : Nat) : List Dirent :=
  match inp with
  | [] => []
  | byte :: rest =>
    let name := (byte :: rest).takeWhile (· ≠ 0)
    if name = [] then convert rest outRemain dOff
    else if outRemain < reclen name then []
    else dirent dOff name :: convert (rest.drop name.length) (outRemain - reclen name) (dOff + 1)
termination_by inp.length
decreasing_by
  · exact Nat.lt_succ_self _
  · rw [length_drop, length_cons]
    omega

structure GetdentsCall where
  count : Nat
  kernelMemory : Bool
  outMemory : Bool
  copied : Bool

def GetdentsCall.userBufSize (call : GetdentsCall) : Nat := call.count % 2 ^ 32

def GetdentsCall.kbufSize (call : GetdentsCall) : Nat := max call.userBufSize (16 * 1024)

/-- The bytes that the user gets, none for an error, and the new position. -/
def sysGetdents64 (dev : Device) (iBlock : Nat → Nat) (position : Nat) (call : GetdentsCall) : Option (List UInt8) × Nat :=
  if call.count = 0 then (some [], position)
  else if !call.kernelMemory then (none, position)
  else
    let read := dev.readDir iBlock position call.kbufSize
    if !call.outMemory then (none, read.2)
    else
      let records := convert read.1 call.userBufSize 0
      if !call.copied then (none, read.2) else (some (records.flatMap Dirent.bytes), read.2)

/-- The results of calls one after another on one descriptor. -/
def results (dev : Device) (iBlock : Nat → Nat) : Nat → List GetdentsCall → List (Option (List UInt8))
  | _, [] => []
  | position, call :: calls =>
    let result := sysGetdents64 dev iBlock position call
    result.1 :: results dev iBlock result.2 calls

/-- The names of records, found by their lengths. -/
def readNames : Nat → List UInt8 → List (List UInt8)
  | 0, _ => []
  | fuel + 1, bytes =>
    let length := (bytes.getD 16 0).toNat + 256 * (bytes.getD 17 0).toNat
    if length = 0 then []
    else (bytes.drop offsetName).takeWhile (· ≠ 0) :: readNames fuel (bytes.drop length)

def namesOf (result : Option (List UInt8)) : List (List UInt8) := readNames (result.getD []).length (result.getD [])

/-- Bytes that are records one after another, each as long as it says and a multiple of 8, and no more than `count`. -/
def WellLaid (count : Nat) (bytes : List UInt8) : Prop :=
  ∃ records : List Dirent, bytes = records.flatMap Dirent.bytes ∧
    (∀ record ∈ records, record.bytes.length = record.dReclen ∧ 8 ∣ record.dReclen) ∧ bytes.length ≤ count

/-- The calls return each name of the directory once and in order, in records that are well laid out. -/
structure Lists (dev : Device) (iBlock : Nat → Nat) (calls : List GetdentsCall) : Prop where
  laid : ∀ pair ∈ calls.zip (results dev iBlock 0 calls), ∀ bytes, pair.2 = some bytes → WellLaid pair.1.count bytes
  names : (results dev iBlock 0 calls).flatMap namesOf = dev.names iBlock

/-- What `ReadDir` takes from the directory gets to the user: the records fit, and nothing fails after it. -/
def GetdentsCall.Delivers (call : GetdentsCall) (taken : List (List UInt8)) : Prop :=
  call.count = 0 ∨ call.kernelMemory = false ∨ taken = [] ∨
    call.outMemory = true ∧ call.copied = true ∧ (taken.map reclen).sum ≤ call.userBufSize

def AllDeliver (dev : Device) (iBlock : Nat → Nat) : Nat → List GetdentsCall → Prop
  | _, [] => True
  | position, call :: calls => call.Delivers (batch (dev.names iBlock) position call.kbufSize) ∧
    AllDeliver dev iBlock (sysGetdents64 dev iBlock position call).2 calls

variable {dev : Device} {iBlock : Nat → Nat} {position : Nat} {call : GetdentsCall} {calls : List GetdentsCall}

def records : Nat → List (List UInt8) → List Dirent
  | _, [] => []
  | dOff, name :: names => dirent dOff name :: records (dOff + 1) names

theorem reclen_bounds (name : List UInt8) : offsetName + name.length + 1 ≤ reclen name ∧ reclen name ≤ name.length + 27 := by
  unfold reclen offsetName
  omega

theorem takeWhile_name {name rest : List UInt8} (plain : (0 : UInt8) ∉ name) :
    (name ++ 0 :: rest).takeWhile (· ≠ 0) = name := by
  have pre : ∀ byte ∈ name, decide (byte ≠ 0) = true := by
    intro byte mem
    apply decide_eq_true
    rintro rfl
    exact plain mem
  rw [takeWhile_append_of_pos pre]
  simp

theorem convert_terminated {names : List (List UInt8)} (proper : ∀ name ∈ names, name ≠ [] ∧ (0 : UInt8) ∉ name)
    (outRemain dOff : Nat) : convert (terminated names) outRemain dOff = records dOff (fitting reclen outRemain names) := by
  induction names generalizing outRemain dOff with
  | nil =>
    rw [terminated, flatMap_nil, convert]
    rfl
  | cons name names ih =>
    obtain ⟨nonempty, plain⟩ := proper name mem_cons_self
    have whole : terminated (name :: names) = name ++ 0 :: terminated names := by simp [terminated]
    have hf : (terminated (name :: names)).takeWhile (· ≠ 0) = name := whole ▸ takeWhile_name plain
    cases name with
    | nil => exact absurd rfl nonempty
    | cons byte rest =>
      rw [whole, cons_append] at hf ⊢
      rw [convert, hf, if_neg nonempty, fitting]
      split
      · rfl
      · have left : (rest ++ 0 :: terminated names).drop (byte :: rest).length = terminated names := by
          rw [length_cons, ← drop_drop, drop_left]
          rfl
        rw [left, ih fun name mem => proper name (mem_cons_of_mem _ mem)]
        rfl

theorem length_littleEndian (width value : Nat) : (littleEndian width value).length = width := by
  simp [littleEndian]

theorem length_bytes (dOff : Nat) {name : List UInt8} (short : name.length < 256) :
    (dirent dOff name).bytes.length = (dirent dOff name).dReclen ∧ (dirent dOff name).dReclen = reclen name := by
  have bounds := reclen_bounds name
  have lt : reclen name % 2 ^ 16 = reclen name := Nat.mod_eq_of_lt (by omega)
  refine ⟨?_, lt⟩
  simp only [Dirent.bytes, dirent, lt, length_append, length_littleEndian, length_replicate, length_singleton]
  unfold offsetName at *
  omega

theorem littleEndian_two (value : Nat) : littleEndian 2 value = [UInt8.ofNat value, UInt8.ofNat (value / 256)] := by
  simp [littleEndian, range_succ]

theorem bytes_eq (dOff : Nat) (name : List UInt8) : ∃ front tail : List UInt8, front.length = 16 ∧
    (dirent dOff name).bytes = front ++ UInt8.ofNat (reclen name % 2 ^ 16) :: UInt8.ofNat (reclen name % 2 ^ 16 / 256) ::
      dtUnknown :: (name ++ 0 :: tail) := by
  refine ⟨littleEndian 8 1 ++ littleEndian 8 (dOff + 1), replicate (reclen name % 2 ^ 16 - (offsetName + name.length + 1)) 0,
    by simp [length_littleEndian], ?_⟩
  simp [Dirent.bytes, dirent, littleEndian_two]

theorem readNames_records {names : List (List UInt8)} (proper : ∀ name ∈ names, name.length < 256 ∧ (0 : UInt8) ∉ name)
    {fuel : Nat} (enough : names.length ≤ fuel) (dOff : Nat) :
    readNames fuel ((records dOff names).flatMap Dirent.bytes) = names := by
  induction names generalizing fuel dOff with
  | nil =>
    cases fuel with
    | zero => rfl
    | succ fuel => rfl
  | cons name names ih =>
    cases fuel with
    | zero => exact absurd enough (by simp)
    | succ fuel =>
      obtain ⟨short, plain⟩ := proper name mem_cons_self
      obtain ⟨front, tail, sixteen, layout⟩ := bytes_eq dOff name
      obtain ⟨width, whole⟩ := length_bytes dOff short
      have bounds := reclen_bounds name
      have lt : reclen name % 2 ^ 16 = reclen name := Nat.mod_eq_of_lt (by omega)
      rw [records, flatMap_cons, readNames]
      generalize after : (records (dOff + 1) names).flatMap Dirent.bytes = rest
      have low : ((dirent dOff name).bytes ++ rest).getD 16 0 = UInt8.ofNat (reclen name) := by
        rw [layout, lt, append_assoc, getD_eq_getElem?_getD, getElem?_append_right (by omega), sixteen]
        rfl
      have high : ((dirent dOff name).bytes ++ rest).getD 17 0 = UInt8.ofNat (reclen name / 256) := by
        rw [layout, lt, append_assoc, getD_eq_getElem?_getD, getElem?_append_right (by omega), sixteen]
        rfl
      have length : (UInt8.ofNat (reclen name)).toNat + 256 * (UInt8.ofNat (reclen name / 256)).toNat = reclen name := by
        simp only [UInt8.toNat_ofNat']
        omega
      have named : (((dirent dOff name).bytes ++ rest).drop offsetName).takeWhile (· ≠ 0) = name := by
        have skip : offsetName = front.length + 3 := by rw [sixteen]; rfl
        rw [layout, append_assoc, skip, ← drop_drop, drop_left]
        simp only [cons_append, drop_succ_cons, drop_zero, append_assoc]
        exact takeWhile_name plain
      have left : ((dirent dOff name).bytes ++ rest).drop (reclen name) = rest := by
        rw [← whole, ← width, drop_left]
      rw [low, high, length, if_neg (by unfold offsetName at bounds; omega), named, left, ← after]
      rw [ih (fun name mem => proper name (mem_cons_of_mem _ mem)) (by simpa using enough)]

theorem length_records (dOff : Nat) {names : List (List UInt8)} (short : ∀ name ∈ names, name.length < 256) :
    ((records dOff names).flatMap Dirent.bytes).length = (names.map reclen).sum := by
  induction names generalizing dOff with
  | nil => rfl
  | cons name names ih =>
    obtain ⟨width, whole⟩ := length_bytes dOff (short name mem_cons_self)
    rw [records, flatMap_cons, length_append, width, whole,
      ih (dOff + 1) fun name mem => short name (mem_cons_of_mem _ mem)]
    rfl

theorem records_laid (dOff : Nat) {names : List (List UInt8)} (short : ∀ name ∈ names, name.length < 256) :
    ∀ record ∈ records dOff names, record.bytes.length = record.dReclen ∧ 8 ∣ record.dReclen := by
  induction names generalizing dOff with
  | nil => exact fun _ mem => nomatch mem
  | cons name names ih =>
    intro record mem
    rcases mem_cons.mp mem with rfl | mem
    · obtain ⟨width, whole⟩ := length_bytes dOff (short name mem_cons_self)
      exact ⟨width, whole ▸ Nat.dvd_mul_left _ _⟩
    · exact ih (dOff + 1) (fun name mem => short name (mem_cons_of_mem _ mem)) record mem

/-- The names that a call hands on of those that `ReadDir` takes. -/
def GetdentsCall.handsOn (call : GetdentsCall) (taken : List (List UInt8)) : List (List UInt8) :=
  if call.count = 0 ∨ call.kernelMemory = false ∨ call.outMemory = false ∨ call.copied = false then []
  else fitting reclen call.userBufSize taken

/-- How far a call moves the position. -/
def GetdentsCall.moves (call : GetdentsCall) (taken : List (List UInt8)) : Nat :=
  if call.count = 0 ∨ call.kernelMemory = false then 0 else taken.length

theorem mem_batch {names : List (List UInt8)} {size : Nat} {name : List UInt8} (mem : name ∈ batch names position size) :
    name ∈ names := mem_of_mem_drop ((prefixed_fitting nameCost size _).subset mem)

theorem wellLaid_nil (count : Nat) : WellLaid count [] := ⟨[], rfl, by simp, Nat.zero_le _⟩

theorem wellLaid_records {names : List (List UInt8)} (short : ∀ name ∈ names, name.length < 256) {count : Nat}
    (enough : (names.map reclen).sum ≤ count) : WellLaid count ((records 0 names).flatMap Dirent.bytes) :=
  ⟨records 0 names, rfl, records_laid 0 short, (length_records 0 short).trans_le enough⟩

theorem namesOf_records {names : List (List UInt8)} (proper : ∀ name ∈ names, name.length < 256 ∧ (0 : UInt8) ∉ name) :
    namesOf (some ((records 0 names).flatMap Dirent.bytes)) = names := by
  refine readNames_records proper ?_ 0
  change names.length ≤ ((records 0 names).flatMap Dirent.bytes).length
  rw [length_records 0 fun name mem => (proper name mem).1]
  clear proper
  induction names with
  | nil => exact Nat.le_refl _
  | cons name names ih =>
    have bounds := reclen_bounds name
    rw [map_cons, sum_cons, length_cons]
    omega

theorem sysGetdents64_eq (call : GetdentsCall) (plain : ∀ name ∈ dev.names iBlock, (0 : UInt8) ∉ name) (hin : position ≤ (dev.names iBlock).length) :
    (∀ bytes, (sysGetdents64 dev iBlock position call).1 = some bytes → WellLaid call.count bytes) ∧
      namesOf (sysGetdents64 dev iBlock position call).1 = call.handsOn (batch (dev.names iBlock) position call.kbufSize) ∧
      (sysGetdents64 dev iBlock position call).2 = position + call.moves (batch (dev.names iBlock) position call.kbufSize) := by
  have room : call.kbufSize ≠ 0 := by unfold GetdentsCall.kbufSize; omega
  unfold sysGetdents64
  rw [readDir_eq iBlock room hin]
  generalize whole : batch (dev.names iBlock) position call.kbufSize = ht
  have short : ∀ name ∈ ht, name ≠ [] ∧ name.length < 256 := fun name mem =>
    names_short iBlock name (mem_batch (whole ▸ mem))
  have noZero : ∀ name ∈ ht, (0 : UInt8) ∉ name := fun name mem => plain name (mem_batch (whole ▸ mem))
  by_cases empty : call.count = 0
  · simp [empty, GetdentsCall.handsOn, GetdentsCall.moves, namesOf, readNames, wellLaid_nil]
  cases kernel : call.kernelMemory with
  | false => simp [empty, kernel, GetdentsCall.handsOn, GetdentsCall.moves, namesOf, readNames]
  | true =>
  cases out : call.outMemory with
  | false => simp [empty, kernel, out, GetdentsCall.handsOn, GetdentsCall.moves, namesOf, readNames]
  | true =>
  cases copied : call.copied with
  | false => simp [empty, kernel, out, copied, GetdentsCall.handsOn, GetdentsCall.moves, namesOf, readNames]
  | true =>
    have converted := convert_terminated (fun name mem => ⟨(short name mem).1, noZero name mem⟩) call.userBufSize 0
    have fits := prefixed_fitting reclen call.userBufSize ht
    have within : ((fitting reclen call.userBufSize ht).map reclen).sum ≤ call.count :=
      (cost_fitting_le _ _ _).trans (Nat.mod_le _ _)
    simp only [empty, if_false, Bool.not_true, Bool.false_eq_true, converted, GetdentsCall.handsOn, GetdentsCall.moves, kernel, out,
      copied, Bool.true_eq_false, or_self]
    refine ⟨?_, ?_, trivial⟩
    · rintro _ ⟨⟩
      exact wellLaid_records (fun name mem => (short name (fits.subset mem)).2) within
    · exact namesOf_records fun name mem => ⟨(short name (fits.subset mem)).2, noZero name (fits.subset mem)⟩

theorem moves_le {names : List (List UInt8)} (hin : position ≤ names.length) :
    position + call.moves (batch names position call.kbufSize) ≤ names.length := by
  have ht := (prefixed_fitting nameCost call.kbufSize (names.drop position)).length_le
  rw [length_drop] at ht
  unfold GetdentsCall.moves batch
  split <;> omega

theorem handsOn_length (call : GetdentsCall) (ht : List (List UInt8)) : (call.handsOn ht).length ≤ call.moves ht := by
  have fits := (prefixed_fitting reclen call.userBufSize ht).length_le
  unfold GetdentsCall.handsOn GetdentsCall.moves
  split
  · exact Nat.zero_le _
  case isFalse fine =>
    rw [if_neg (by tauto)]
    exact fits

theorem delivers_of_length {ht : List (List UInt8)} (all : call.moves ht ≤ (call.handsOn ht).length) : call.Delivers ht := by
  unfold GetdentsCall.handsOn GetdentsCall.moves at all
  split at all
  case isTrue idle => exact idle.imp_right .inl
  case isFalse busy =>
    split at all
    case isTrue failed =>
      exact .inr (.inr (.inl (eq_nil_of_length_eq_zero (Nat.le_zero.mp all))))
    case isFalse fine =>
      have eq := (prefixed_fitting reclen call.userBufSize ht).eq_of_length_le all
      simp only [not_or, Bool.not_eq_false] at fine
      exact .inr (.inr (.inr ⟨fine.2.2.1, fine.2.2.2, fitting_eq_self_iff.mp eq⟩))

theorem handsOn_of_delivers {ht : List (List UInt8)} (delivers : call.Delivers ht) : call.handsOn ht = ht.take (call.moves ht) := by
  unfold GetdentsCall.handsOn GetdentsCall.moves
  rcases delivers with empty | kernel | rfl | ⟨out, copied, enough⟩
  · simp [empty]
  · simp [kernel]
  · simp [fitting]
  · rw [fitting_of_le enough]
    by_cases idle : call.count = 0 ∨ call.kernelMemory = false
    · rw [if_pos idle, if_pos (by tauto)]
      rfl
    · rw [if_neg idle, if_neg (by simp_all), take_length]

def positionAfter (dev : Device) (iBlock : Nat → Nat) : Nat → List GetdentsCall → Nat
  | position, [] => position
  | position, call :: calls => positionAfter dev iBlock (sysGetdents64 dev iBlock position call).2 calls

section

variable (plain : ∀ name ∈ dev.names iBlock, (0 : UInt8) ∉ name)
include plain

theorem results_laid (hin : position ≤ (dev.names iBlock).length) :
    ∀ pair ∈ calls.zip (results dev iBlock position calls), ∀ bytes, pair.2 = some bytes → WellLaid pair.1.count bytes := by
  induction calls generalizing position with
  | nil => exact fun _ mem => nomatch mem
  | cons call calls ih =>
    obtain ⟨laid, _, next⟩ := sysGetdents64_eq call plain hin
    intro pair mem
    rcases mem_cons.mp mem with rfl | mem
    · exact laid
    · exact ih (next ▸ moves_le hin) pair mem

theorem positionAfter_le (calls : List GetdentsCall) (hin : position ≤ (dev.names iBlock).length) :
    positionAfter dev iBlock position calls ≤ (dev.names iBlock).length := by
  induction calls generalizing position with
  | nil => exact hin
  | cons call calls ih =>
    obtain ⟨_, _, next⟩ := sysGetdents64_eq call plain hin
    exact ih (next ▸ moves_le hin)

theorem returned_le (calls : List GetdentsCall) (hin : position ≤ (dev.names iBlock).length) :
    position + ((results dev iBlock position calls).flatMap namesOf).length ≤ positionAfter dev iBlock position calls ∧
      (positionAfter dev iBlock position calls ≤ position + ((results dev iBlock position calls).flatMap namesOf).length →
        AllDeliver dev iBlock position calls) := by
  induction calls generalizing position with
  | nil => exact ⟨Nat.le_refl _, fun _ => trivial⟩
  | cons call calls ih =>
    obtain ⟨_, named, next⟩ := sysGetdents64_eq call plain hin
    obtain ⟨bound, all⟩ := ih (next ▸ moves_le hin : (sysGetdents64 dev iBlock position call).2 ≤ _)
    have handed := handsOn_length call (batch (dev.names iBlock) position call.kbufSize)
    rw [results, flatMap_cons, length_append, named, positionAfter]
    refine ⟨by omega, fun equal => ⟨delivers_of_length (by omega), all (by omega)⟩⟩

theorem returned_of_allDeliver (hin : position ≤ (dev.names iBlock).length) (deliver : AllDeliver dev iBlock position calls) :
    (results dev iBlock position calls).flatMap namesOf ++ (dev.names iBlock).drop (positionAfter dev iBlock position calls) =
      (dev.names iBlock).drop position := by
  induction calls generalizing position with
  | nil => rfl
  | cons call calls ih =>
    obtain ⟨_, named, next⟩ := sysGetdents64_eq call plain hin
    have rest := ih (next ▸ moves_le hin) deliver.2
    have moved : call.moves (batch (dev.names iBlock) position call.kbufSize) ≤ (batch (dev.names iBlock) position call.kbufSize).length := by
      unfold GetdentsCall.moves
      split <;> omega
    obtain ⟨more, whole⟩ : batch (dev.names iBlock) position call.kbufSize <+: (dev.names iBlock).drop position := prefixed_fitting _ _ _
    rw [results, flatMap_cons, append_assoc, positionAfter, rest, named, handsOn_of_delivers deliver.1, next,
      ← drop_drop, ← whole, drop_append_of_le_length moved, ← append_assoc, take_append_drop]

omit plain in
theorem sysGetdents64_some {bytes : List UInt8} (given : (sysGetdents64 dev iBlock position call).1 = some bytes) :
    call.count = 0 ∨ call.kernelMemory = true ∧ call.outMemory = true ∧ call.copied = true := by
  unfold sysGetdents64 at given
  by_cases empty : call.count = 0
  · exact .inl empty
  · grind

omit plain in
theorem sysGetdents64_end {count : Nat} (there : position = (dev.names iBlock).length) :
    (sysGetdents64 dev iBlock position ⟨count, true, true, true⟩).1 = some [] := by
  unfold sysGetdents64
  by_cases empty : count = 0
  · simp [empty]
  · have room : (GetdentsCall.mk count true true true).kbufSize ≠ 0 := by unfold GetdentsCall.kbufSize; omega
    rw [readDir_eq iBlock room there.le, batch, there, drop_length]
    simp [empty, fitting, terminated, convert]

theorem finished (hin : position ≤ (dev.names iBlock).length) (sizes : ∀ name ∈ dev.names iBlock, reclen name ≤ call.count)
    (deliver : call.Delivers (batch (dev.names iBlock) position call.kbufSize))
    (zero : (sysGetdents64 dev iBlock position call).1 = some []) : (dev.names iBlock).length ≤ position := by
  by_cases empty : call.count = 0
  · cases whole : dev.names iBlock with
    | nil => exact Nat.zero_le _
    | cons name names =>
      have size := sizes name (whole ▸ .head _)
      have bounds := reclen_bounds name
      omega
  · obtain ⟨kernel, _, _⟩ := (sysGetdents64_some zero).resolve_left empty
    obtain ⟨_, named, _⟩ := sysGetdents64_eq call plain hin
    have moves : call.moves (batch (dev.names iBlock) position call.kbufSize) = (batch (dev.names iBlock) position call.kbufSize).length := by
      simp [GetdentsCall.moves, empty, kernel]
    rw [zero, handsOn_of_delivers deliver, moves, take_length] at named
    have nothing := fitting_eq_nil (show fitting nameCost call.kbufSize _ = [] from named.symm) fun name mem => by
      have short := (names_short iBlock name (mem_of_mem_drop mem)).2
      unfold nameCost GetdentsCall.kbufSize
      omega
    exact drop_eq_nil_iff.mp nothing

theorem all_finished (hin : position ≤ (dev.names iBlock).length)
    (sizes : ∀ call ∈ calls, ∀ name ∈ dev.names iBlock, reclen name ≤ call.count) (deliver : AllDeliver dev iBlock position calls)
    (zero : (results dev iBlock position calls).getLast? = some (some [])) :
    (dev.names iBlock).length ≤ positionAfter dev iBlock position calls := by
  induction calls generalizing position with
  | nil => exact nomatch zero
  | cons call calls ih =>
    obtain ⟨_, _, next⟩ := sysGetdents64_eq call plain hin
    cases calls with
    | nil =>
      have ret : (sysGetdents64 dev iBlock position call).1 = some [] := by simpa [results] using zero
      have last := finished plain hin (sizes call mem_cons_self) deliver.1 ret
      exact last.trans ((Nat.le_add_right ..).trans_eq next.symm)
    | cons snd calls =>
      have ret : (results dev iBlock (sysGetdents64 dev iBlock position call).2 (snd :: calls)).getLast? = some (some []) := by
        rw [results, results, getLast?_cons_cons] at zero
        rwa [results]
      exact ih (next ▸ moves_le hin) (fun call mem => sizes call (mem_cons_of_mem _ mem)) deliver.2 ret

end

/-- Calls with room for the largest record, until one returns 0, list the directory if and only if each of them
delivers what `ReadDir` takes. -/
theorem lists_iff (plain : ∀ name ∈ dev.names iBlock, (0 : UInt8) ∉ name)
    (sizes : ∀ call ∈ calls, ∀ name ∈ dev.names iBlock, reclen name ≤ call.count)
    (zero : (results dev iBlock 0 calls).getLast? = some (some [])) : Lists dev iBlock calls ↔ AllDeliver dev iBlock 0 calls := by
  have hin : 0 ≤ (dev.names iBlock).length := Nat.zero_le _
  constructor
  · intro lists
    obtain ⟨_, all⟩ := returned_le plain calls hin
    have bound := positionAfter_le plain calls hin
    rw [lists.names] at all
    exact all (by omega)
  · intro deliver
    refine ⟨results_laid plain hin, ?_⟩
    have ret := returned_of_allDeliver plain hin deliver
    rwa [drop_of_length_le (all_finished plain hin sizes deliver zero), append_nil, drop_zero] at ret

/-- A directory of one block with the names a and b, each with an inode. -/
def twoNames : Device := ⟨1024, fun _ => some fun i =>
  [12, 0, 0, 0, 12, 0, 1, 1, 97, 0, 0, 0, 13, 0, 0, 0, 244, 3, 1, 1, 98].getD i 0⟩

def firstBlock (i : Nat) : Nat := if i = 0 then 5 else 0

def roomyCall (count : Nat) : GetdentsCall := ⟨count, true, true, true⟩

theorem twoNames_names : twoNames.names firstBlock = [[97], [98]] := by decide +kernel

theorem twoNames_plain : ∀ name ∈ twoNames.names firstBlock, (0 : UInt8) ∉ name := by
  rw [twoNames_names]
  decide

theorem twoNames_next {count : Nat} (counts : count = 24 ∨ count = 48) :
    (sysGetdents64 twoNames firstBlock 0 (roomyCall count)).2 = 2 := by
  rw [(sysGetdents64_eq _ twoNames_plain (Nat.zero_le _)).2.2, twoNames_names]
  rcases counts with rfl | rfl <;> decide

theorem twoNames_zero {count : Nat} (counts : count = 24 ∨ count = 48) :
    (results twoNames firstBlock 0 [roomyCall count, roomyCall count]).getLast? = some (some []) := by
  rw [results, results, results, getLast?_cons_cons, getLast?_singleton, twoNames_next counts]
  exact congrArg some (sysGetdents64_end (twoNames_names ▸ rfl))

theorem twoNames_sizes {count : Nat} (enough : 24 ≤ count) :
    ∀ call ∈ [roomyCall count, roomyCall count], ∀ name ∈ twoNames.names firstBlock, reclen name ≤ call.count := by
  rw [twoNames_names]
  intro call mem name among
  have lt : reclen name ≤ 24 := by
    revert name
    decide
  rcases mem_pair.mp mem with rfl | rfl <;> exact lt.trans enough

theorem lists_iff_roomy : Lists twoNames firstBlock [roomyCall 48, roomyCall 48] :=
  (lists_iff twoNames_plain (twoNames_sizes (by decide)) (twoNames_zero (.inr rfl))).mpr (by
    refine ⟨?_, ?_, trivial⟩
    · rw [twoNames_names]
      exact .inr (.inr (.inr (by decide)))
    · rw [twoNames_next (.inr rfl), twoNames_names]
      exact .inr (.inr (.inl (by decide))))

/-- With room for one record at a time, the second name is lost. -/
theorem tight_loses : (∀ name ∈ twoNames.names firstBlock, (0 : UInt8) ∉ name) ∧
    (∀ call ∈ [roomyCall 24, roomyCall 24], ∀ name ∈ twoNames.names firstBlock, reclen name ≤ call.count) ∧
    (results twoNames firstBlock 0 [roomyCall 24, roomyCall 24]).getLast? = some (some []) ∧
    ¬ Lists twoNames firstBlock [roomyCall 24, roomyCall 24] := by
  refine ⟨twoNames_plain, twoNames_sizes (by decide), twoNames_zero (.inl rfl), fun lists => ?_⟩
  have names := lists.names
  have first := (sysGetdents64_eq (roomyCall 24) twoNames_plain (Nat.zero_le _)).2.1
  have hin : 2 ≤ (twoNames.names firstBlock).length := twoNames_names ▸ Nat.le_refl 2
  have snd := (sysGetdents64_eq (roomyCall 24) twoNames_plain hin).2.1
  rw [results, results, results, flatMap_cons, flatMap_cons, twoNames_next (.inl rfl), first, snd, twoNames_names] at names
  exact absurd names (by decide)

end RosKernel.Ext2
