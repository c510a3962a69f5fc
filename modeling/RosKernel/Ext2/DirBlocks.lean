import RosKernel.Library.Views
import RosKernel.Ext2.ReadDir

/-! The entries of one directory block.

The scans of `FindEntryInDirectory`, `RemoveEntryFromDirectory` and `AddEntryToDirectory` work on the
bytes of a block in memory. A block that is a chain of records is a list of them, and each scan has
its meaning on the list.
-/

set_option autoImplicit false

namespace RosKernel.Ext2

open Library List

/-- Where the entry with a name starts, from an offset on; an entry is at least a byte long. -/
def findFrom (blockSize : Nat) (name : List UInt8) (data : Bytes) : Nat → Nat → Option Nat
  | 0, _ => none
  | fuel + 1, offset =>
    if blockSize ≤ offset then none
    else
      let recLen := load data (offset + 4) 2
      if recLen = 0 then none
      else if load data offset 4 ≠ 0 ∧ entryName data offset = name then some offset
      else findFrom blockSize name data fuel (offset + recLen)

/-- What `FindEntryInDirectory` copies out; a `DirectoryEntry` has 264 bytes. -/
def outEntry (data : Bytes) (offset : Nat) : Bytes :=
  fun pos => if pos < min (load data (offset + 4) 2) 264 then data (offset + pos) else 0

/-- The header with neither an inode nor a name. -/
def removeEntry (data : Bytes) (offset : Nat) : Bytes := store (store (store data offset 4 0) (offset + 6) 1 0) (offset + 7) 1 0

def getNeedRecLen (nameLen : Nat) : Nat := (8 + nameLen + 3) / 4 * 4

def putEntry (data : Bytes) (offset inodeNum recLen fileType : Nat) (name : List UInt8) : Bytes :=
  putBytes (store (store (store (store data offset 4 inodeNum) (offset + 4) 2 recLen) (offset + 6) 1 name.length) (offset + 7) 1 fileType)
    (offset + 8) name

/-- The new entry goes behind the last one, or in its place when that has no inode. The length of a
name is kept in 8 bits. -/
def addFrom (blockSize inodeNum fileType : Nat) (name : List UInt8) (data : Bytes) : Nat → Nat → Option Bytes
  | 0, _ => none
  | fuel + 1, offset =>
    if blockSize ≤ offset then none
    else
      let recLen := load data (offset + 4) 2
      if recLen = 0 then none
      else
        let lastNeededLen := if load data offset 4 = 0 then 0 else getNeedRecLen (load data (offset + 6) 1)
        let freeSpace := (recLen + (2 ^ 16 - lastNeededLen)) % 2 ^ 16
        if blockSize ≤ offset + recLen ∧ getNeedRecLen (name.length % 2 ^ 8) ≤ freeSpace then
          let data := if load data offset 4 = 0 then data else store data (offset + 4) 2 lastNeededLen
          some (putEntry data (offset + lastNeededLen) inodeNum freeSpace fileType (name.take (name.length % 2 ^ 8)))
        else addFrom blockSize inodeNum fileType name data fuel (offset + recLen)

namespace DirRecord

def answers (name : List UInt8) (record : DirRecord) : Bool := record.live && decide (record.name = name)

/-- The record without its entry. -/
def dead (record : DirRecord) : DirRecord := { record with inode := 0, name := [] }

def need (record : DirRecord) : Nat := if record.live then getNeedRecLen record.name.length else 0

/-- What is left of a record when its entry takes no more than it needs. -/
def spare (record : DirRecord) : Nat := record.recLen - record.need

/-- The last record with a new one behind it or in its place. -/
def placed (inodeNum : Nat) (name : List UInt8) (last : DirRecord) : List DirRecord :=
  (if last.live then [{ last with recLen := last.need }] else []) ++ [⟨inodeNum, last.spare, name⟩]

end DirRecord

/-- The inode that a name has among records. -/
def resolved (name : List UInt8) (records : List DirRecord) : Option Nat :=
  (records.find? (DirRecord.answers name)).map DirRecord.inode

/-- No two entries have the same name. -/
def Distinct (records : List DirRecord) : Prop := ((records.filter DirRecord.live).map DirRecord.name).Nodup

section

variable {name other : List UInt8} {inodeNum : Nat} {records front back : List DirRecord} {record last : DirRecord}

theorem getNeedRecLen_spec (nameLen : Nat) : 8 + nameLen ≤ getNeedRecLen nameLen ∧ getNeedRecLen nameLen ≤ 11 + nameLen ∧ 4 ∣ getNeedRecLen nameLen := by
  unfold getNeedRecLen
  exact ⟨by omega, by omega, Nat.dvd_mul_left ..⟩

namespace DirRecord

theorem answers_iff : record.answers name = true ↔ record.live = true ∧ record.name = name := by
  rw [answers, Bool.and_eq_true, decide_eq_true_iff]

@[simp] theorem answers_dead (name : List UInt8) (record : DirRecord) : record.dead.answers name = false := rfl

theorem Fits.need_le (fits : record.Fits) : record.need ≤ record.recLen ∧ 4 ∣ record.need := by
  obtain ⟨room, hal⟩ := fits
  have spec := getNeedRecLen_spec record.name.length
  unfold need
  split
  · exact ⟨by omega, spec.2.2⟩
  · exact ⟨Nat.zero_le _, Nat.dvd_zero 4⟩

theorem Fits.dead (fits : record.Fits) : record.dead.Fits where
  room := (Nat.add_le_add_left (Nat.zero_le _) 8).trans fits.room
  aligned := fits.aligned

end DirRecord

theorem resolved_append (name : List UInt8) (records more : List DirRecord) :
    resolved name (records ++ more) = (resolved name records).or (resolved name more) := by
  unfold resolved
  rw [find?_append]
  cases records.find? (DirRecord.answers name) <;> rfl

theorem resolved_eq_none : resolved name records = none ↔ ∀ record ∈ records, record.live = true → record.name ≠ name := by
  unfold resolved
  rw [Option.map_eq_none_iff, find?_eq_none]
  refine forall₂_congr fun record _ => ?_
  rw [DirRecord.answers_iff, not_and]

/-- Without its entry a record answers to no name, and the others answer as before. -/
theorem resolved_dead (away : record.name ≠ other) : resolved other (front ++ record.dead :: back) = resolved other (front ++ record :: back) := by
  have silent : record.answers other = false := Bool.eq_false_iff.mpr fun ans => away (DirRecord.answers_iff.mp ans).2
  unfold resolved
  rw [find?_append, find?_append, find?_cons_of_neg (by simp), find?_cons_of_neg (by simp [silent])]

theorem resolved_placed_self (fresh : resolved name (front ++ [last]) = none) (nz : inodeNum ≠ 0) :
    resolved name (front ++ last.placed inodeNum name) = some inodeNum := by
  have isLive : (⟨inodeNum, last.spare, name⟩ : DirRecord).answers name = true :=
    DirRecord.answers_iff.mpr ⟨bne_iff_ne.mpr nz, rfl⟩
  rw [resolved_append, Option.or_eq_none_iff] at fresh
  rw [resolved_append, fresh.1, Option.none_or, DirRecord.placed, resolved_append]
  have absent : resolved name (if last.live then [{ last with recLen := last.need }] else []) = none := by
    have absent := resolved_eq_none.mp fresh.2
    refine resolved_eq_none.mpr fun record mem live => ?_
    split at mem
    · grind
    · exact nomatch mem
  rw [absent, Option.none_or, resolved, find?_cons_of_pos isLive]
  rfl

theorem resolved_placed_other (away : name ≠ other) : resolved other (front ++ last.placed inodeNum name) = resolved other (front ++ [last]) := by
  have silent : (⟨inodeNum, last.spare, name⟩ : DirRecord).answers other = false :=
    Bool.eq_false_iff.mpr fun ans => away (DirRecord.answers_iff.mp ans).2
  have none : resolved other [⟨inodeNum, last.spare, name⟩] = none := by
    rw [resolved, find?_cons_of_neg (by simp [silent])]
    rfl
  rw [resolved_append, resolved_append]
  congr 1
  rw [DirRecord.placed, resolved_append, none, Option.or_none]
  by_cases live : last.live = true
  · rw [if_pos live, resolved, resolved, find?_singleton, find?_singleton]
    by_cases ans : last.answers other = true
    · rw [if_pos ans, if_pos (show DirRecord.answers other { last with recLen := last.need } = true from ans)]
      rfl
    · rw [if_neg ans, if_neg (show ¬DirRecord.answers other { last with recLen := last.need } = true from ans)]
  · have dead : last.answers other = false := Bool.eq_false_iff.mpr fun ans => live (DirRecord.answers_iff.mp ans).1
    rw [if_neg live, resolved, resolved, find?_cons_of_neg (by simp [dead])]

end

section

variable {data after : Bytes} {blockSize fuel offset start finish stop inodeNum fileType : Nat} {name other : List UInt8}
  {records front middle back : List DirRecord} {last : DirRecord}

theorem Records.splice (pre : Records data offset front start) (behind : Records data finish back stop)
    (eq : ∀ pos, pos < start ∨ finish ≤ pos → after pos = data pos) (mid : Records after start middle finish) :
    Records after offset (front ++ (middle ++ back)) stop := by
  have low := pre.le
  exact (pre.congr fun pos _ hin => eq pos (.inl (by omega))).append
    (mid.append (behind.congr fun pos hin _ => eq pos (.inr hin)))

theorem Records.findFrom_cases (name : List UInt8) (chain : Records data offset records blockSize) (enough : blockSize ≤ offset + fuel) :
    (findFrom blockSize name data fuel offset = none ∧ ∀ record ∈ records, record.answers name = false) ∨
    ∃ start front back, findFrom blockSize name data fuel offset = some start ∧ records = front ++ recordAt data start :: back ∧
      Records data offset front start ∧ Records data (start + (recordAt data start).recLen) back blockSize ∧
      (∀ record ∈ front, record.answers name = false) ∧ (recordAt data start).answers name = true ∧ (recordAt data start).Fits := by
  induction fuel generalizing offset records with
  | zero =>
    obtain rfl : offset = blockSize := le_antisymm chain.le enough
    rw [chain.eq_nil]
    exact .inl ⟨rfl, fun _ mem => nomatch mem⟩
  | succ fuel ih =>
    cases chain with
    | nil => exact .inl ⟨by rw [findFrom, if_pos le_rfl], fun _ mem => nomatch mem⟩
    | @cons _ _ rest fits behind =>
      have room := fits.room
      have hin := behind.le
      have length : (recordAt data offset).recLen = load data (offset + 4) 2 := rfl
      have h : (recordAt data offset).answers name = true ↔ load data offset 4 ≠ 0 ∧ entryName data offset = name :=
        DirRecord.answers_iff.trans (and_congr_left fun _ => bne_iff_ne)
      rw [findFrom, if_neg (by omega)]
      rw [← length, if_neg (by omega)]
      by_cases hf : (recordAt data offset).answers name = true
      · rw [if_pos (h.mp hf)]
        exact .inr ⟨offset, [], rest, rfl, rfl, .nil, behind, fun _ mem => (nomatch mem), hf, fits⟩
      · rw [if_neg fun both => hf (h.mpr both)]
        rw [Bool.not_eq_true] at hf
        rcases ih behind (by omega) with ⟨miss, silent⟩ | ⟨start, front, back, search, split, pre, after, silent, ans, shaped⟩
        · grind
        · exact .inr ⟨start, recordAt data offset :: front, back, search, congrArg (recordAt data offset :: ·) split,
            .cons fits pre, after, forall_mem_cons.mpr ⟨hf, silent⟩, ans, shaped⟩

theorem Records.resolved_eq (chain : Records data offset records blockSize) (enough : blockSize ≤ offset + fuel) :
    (findFrom blockSize name data fuel offset).map (fun start => load data start 4) = resolved name records := by
  unfold resolved
  rcases chain.findFrom_cases name enough with ⟨miss, silent⟩ | ⟨start, front, back, search, split, _, _, silent, ans, _⟩
  · grind
  · have skipped : front.find? (DirRecord.answers name) = none := find?_eq_none.mpr fun record mem => by simp [silent record mem]
    rw [search, split, find?_append, skipped, Option.none_or, find?_cons_of_pos ans]
    rfl

theorem load_outEntry (room : 4 ≤ load data (start + 4) 2) : load (outEntry data start) 0 4 = load data start 4 := by
  have bytes : ∀ pos < 4, outEntry data start pos = data (start + pos) := fun pos lt => if_pos (by omega)
  simp only [load, Nat.zero_add, bytes 0 (by decide), bytes 1 (by decide), bytes 2 (by decide), bytes 3 (by decide), Nat.add_zero]

theorem removeEntry_outside {pos : Nat} (out : pos < start ∨ start + 8 ≤ pos) : removeEntry data start pos = data pos := by
  unfold removeEntry
  rw [store_outside (by omega), store_outside (by omega), store_outside (by omega)]

theorem recordAt_removeEntry (data : Bytes) (start : Nat) : recordAt (removeEntry data start) start = (recordAt data start).dead := by
  have nameLen : load (removeEntry data start) (start + 6) 1 = 0 := by
    unfold removeEntry
    rw [load_store_apart (by omega), load_store]
    rfl
  have noName : entryName (removeEntry data start) start = [] := by
    unfold entryName
    rw [nameLen]
    rfl
  refine DirRecord.mk.injEq .. |>.mpr ⟨?_, ?_, noName⟩
  · unfold removeEntry
    rw [load_store_apart (by omega), load_store_apart (by omega), load_store]
    rfl
  · unfold removeEntry
    rw [load_store_apart (by omega), load_store_apart (by omega), load_store_apart (by omega)]
    rfl

theorem Records.removed (pre : Records data offset front start) (fits : (recordAt data start).Fits)
    (behind : Records data (start + (recordAt data start).recLen) back blockSize) :
    Records (removeEntry data start) offset (front ++ (recordAt data start).dead :: back) blockSize := by
  have room := fits.room
  have h := recordAt_removeEntry data start
  have shaped : (recordAt (removeEntry data start) start).Fits := h ▸ fits.dead
  have span : start + (recordAt (removeEntry data start) start).recLen = start + (recordAt data start).recLen := by
    rw [h]
    rfl
  have one : Records (removeEntry data start) start [recordAt (removeEntry data start) start] (start + (recordAt data start).recLen) :=
    .cons shaped (span ▸ .nil)
  rw [h] at one
  exact pre.splice behind (fun pos out => removeEntry_outside (by omega)) one

theorem recordAt_putEntry (data : Bytes) (start : Nat) {recLen : Nat} (inode : inodeNum < 2 ^ 32) (span : recLen < 2 ^ 16)
    (short : name.length < 2 ^ 8) : recordAt (putEntry data start inodeNum recLen fileType name) start = ⟨inodeNum, recLen, name⟩ := by
  have header : ∀ {mem : Bytes} {addr width : Nat}, addr + width ≤ start + 8 → load (putBytes mem (start + 8) name) addr width = load mem addr width :=
    fun hin => load_congr (sameBytes_putBytes (.inl hin))
  have nameLen : load (putEntry data start inodeNum recLen fileType name) (start + 6) 1 = name.length := by
    unfold putEntry
    rw [header (by omega), load_store_apart (by omega), load_store]
    exact Nat.mod_eq_of_lt short
  refine DirRecord.mk.injEq .. |>.mpr ⟨?_, ?_, ?_⟩
  · unfold putEntry
    rw [header (by omega), load_store_apart (by omega), load_store_apart (by omega), load_store_apart (by omega), load_store]
    exact Nat.mod_eq_of_lt inode
  · unfold putEntry
    rw [header (by omega), load_store_apart (by omega), load_store_apart (by omega), load_store]
    exact Nat.mod_eq_of_lt span
  · unfold entryName
    rw [nameLen]
    exact map_putBytes

theorem putEntry_outside {recLen pos : Nat} (out : pos < start ∨ start + 8 + name.length ≤ pos) :
    putEntry data start inodeNum recLen fileType name pos = data pos := by
  unfold putEntry
  rw [putBytes_outside (by omega), store_outside (by omega), store_outside (by omega), store_outside (by omega), store_outside (by omega)]

theorem live_recordAt (data : Bytes) (start : Nat) : (recordAt data start).live = true ↔ load data start 4 ≠ 0 := bne_iff_ne

theorem need_recordAt (data : Bytes) (start : Nat) : (recordAt data start).need =
    if load data start 4 = 0 then 0 else getNeedRecLen (load data (start + 6) 1) := by
  have named : (recordAt data start).name.length = load data (start + 6) 1 := entryName_length data start
  unfold DirRecord.need
  rw [named]
  by_cases zero : load data start 4 = 0
  · rw [if_pos zero, if_neg fun live => (live_recordAt data start).mp live zero]
  · rw [if_neg zero, if_pos ((live_recordAt data start).mpr zero)]

/-- The block with a new entry at its last record. -/
def placeEntry (data : Bytes) (start inodeNum fileType : Nat) (name : List UInt8) : Bytes :=
  putEntry (if load data start 4 = 0 then data else store data (start + 4) 2 (recordAt data start).need) (start + (recordAt data start).need)
    inodeNum (recordAt data start).spare fileType name

theorem Records.addFrom_last (chain : Records data offset (front ++ [last]) blockSize) (enough : blockSize ≤ offset + fuel)
    (short : name.length < 2 ^ 8) : ∃ start, Records data offset front start ∧ recordAt data start = last ∧ last.Fits ∧
      start + last.recLen = blockSize ∧ addFrom blockSize inodeNum fileType name data fuel offset =
        if getNeedRecLen name.length ≤ last.spare then some (placeEntry data start inodeNum fileType name) else none := by
  induction fuel generalizing offset front with
  | zero =>
    obtain rfl : offset = blockSize := le_antisymm chain.le enough
    exact absurd chain.eq_nil (append_ne_nil_of_right_ne_nil _ (cons_ne_nil _ _))
  | succ fuel ih =>
    have narrow := load_lt data (offset + 4) 2
    have length : (recordAt data offset).recLen = load data (offset + 4) 2 := rfl
    cases front with
    | nil =>
      cases chain with
      | cons fits behind =>
      cases behind
      have room := fits.room
      have needs := fits.need_le.1
      have free : ((recordAt data offset).recLen + (2 ^ 16 - (recordAt data offset).need)) % 2 ^ 16 = (recordAt data offset).spare := by
        unfold DirRecord.spare
        omega
      refine ⟨offset, .nil, rfl, fits, rfl, ?_⟩
      rw [addFrom, if_neg (by omega)]
      dsimp only
      rw [← length, if_neg (by omega), ← need_recordAt, free, Nat.mod_eq_of_lt short, take_length]
      by_cases roomy : getNeedRecLen name.length ≤ (recordAt data offset).spare
      · rw [if_pos ⟨le_rfl, roomy⟩, if_pos roomy]
        rfl
      · rw [if_neg fun both => roomy both.2, if_neg roomy]
        cases fuel with
        | zero => rfl
        | succ fuel => rw [addFrom, if_pos le_rfl]
    | cons record front =>
      cases chain with
      | cons fits behind =>
      obtain ⟨middle, _, tail⟩ := behind.split
      have room := fits.room
      have low := behind.le
      have hin := tail.lt_of_cons
      obtain ⟨start, pre, h, shaped, ends, search⟩ := ih behind (by omega)
      have onward : offset + (recordAt data offset).recLen < blockSize := by
        have hr := pre.le
        omega
      refine ⟨start, .cons fits pre, h, shaped, ends, ?_⟩
      rw [← search, addFrom, if_neg (by omega)]
      rw [← length, if_neg (by omega), if_neg (by omega)]

/-- A fresh block takes no entry, since the length of its first record is zero. -/
theorem addFrom_zero : addFrom blockSize inodeNum fileType name (fun _ => 0) fuel offset = none := by
  cases fuel with
  | zero => rfl
  | succ fuel =>
    rw [addFrom]
    rw [if_pos (load_zero _ _)]
    exact ite_self _

theorem findFrom_zero : findFrom blockSize name (fun _ => 0) fuel offset = none := by
  cases fuel with
  | zero => rfl
  | succ fuel =>
    rw [findFrom]
    rw [if_pos (load_zero _ _)]
    exact ite_self _

theorem recordAt_shrunk (data : Bytes) (start : Nat) {need : Nat} (room : 8 + load data (start + 6) 1 ≤ need) (narrow : need < 2 ^ 16)
    (inodeNum recLen fileType : Nat) (name : List UInt8) :
    recordAt (putEntry (store data (start + 4) 2 need) (start + need) inodeNum recLen fileType name) start =
      { recordAt data start with recLen := need } := by
  have header : ∀ {addr width : Nat}, addr + width ≤ start + need →
      load (putEntry (store data (start + 4) 2 need) (start + need) inodeNum recLen fileType name) addr width =
        load (store data (start + 4) 2 need) addr width :=
    fun hin => load_congr fun pos _ high => putEntry_outside (by omega)
  have nameLen : load (putEntry (store data (start + 4) 2 need) (start + need) inodeNum recLen fileType name) (start + 6) 1 =
      load data (start + 6) 1 := by
    rw [header (by omega), load_store_apart (by omega)]
  refine DirRecord.mk.injEq .. |>.mpr ⟨?_, ?_, ?_⟩
  · rw [header (by omega), load_store_apart (by omega)]
    rfl
  · rw [header (by omega), load_store]
    exact Nat.mod_eq_of_lt narrow
  · change entryName _ start = entryName data start
    unfold entryName
    rw [nameLen]
    refine map_congr_left fun i mem => ?_
    have hin := mem_range.mp mem
    rw [putEntry_outside (by omega), store_outside (by omega)]

theorem Records.added (pre : Records data offset front start) (fits : (recordAt data start).Fits)
    (ends : start + (recordAt data start).recLen = blockSize) (roomy : getNeedRecLen name.length ≤ (recordAt data start).spare)
    (inode : inodeNum < 2 ^ 32) (short : name.length < 2 ^ 8) :
    Records (placeEntry data start inodeNum fileType name) offset (front ++ (recordAt data start).placed inodeNum name) blockSize := by
  have narrow := load_lt data (start + 4) 2
  have length : (recordAt data start).recLen = load data (start + 4) 2 := rfl
  obtain ⟨needs, hal⟩ := fits.need_le
  have wanted := getNeedRecLen_spec name.length
  have spare : (recordAt data start).spare + (recordAt data start).need = (recordAt data start).recLen := Nat.sub_add_cancel needs
  have header := need_recordAt data start
  have placed : ∀ mem, recordAt (putEntry mem (start + (recordAt data start).need) inodeNum (recordAt data start).spare fileType name)
      (start + (recordAt data start).need) = ⟨inodeNum, (recordAt data start).spare, name⟩ :=
    fun mem => recordAt_putEntry mem _ inode (by omega) short
  have newFits : (⟨inodeNum, (recordAt data start).spare, name⟩ : DirRecord).Fits :=
    ⟨show 8 + name.length ≤ (recordAt data start).spare by omega, (Nat.dvd_add_left hal).mp (spare ▸ fits.aligned)⟩
  have newChain : ∀ mem, Records (putEntry mem (start + (recordAt data start).need) inodeNum (recordAt data start).spare fileType name)
      (start + (recordAt data start).need) [⟨inodeNum, (recordAt data start).spare, name⟩] blockSize := by
    intro mem
    have h := placed mem
    rw [← h]
    refine .cons (h ▸ newFits) ?_
    rw [h, show start + (recordAt data start).need + (recordAt data start).spare = blockSize by omega]
    exact .nil
  rw [← append_nil ((recordAt data start).placed inodeNum name)]
  refine pre.splice (Records.nil : Records data blockSize [] blockSize) ?_ ?_
  case refine_1 =>
    intro pos out
    unfold placeEntry
    rw [putEntry_outside (by omega)]
    split
    · rfl
    · exact store_outside (by omega)
  case refine_2 =>
    unfold placeEntry DirRecord.placed
    by_cases zero : load data start 4 = 0
    · have dead : ¬(recordAt data start).live = true := fun live => (live_recordAt data start).mp live zero
      rw [if_pos zero] at header
      rw [if_pos zero, if_neg dead, nil_append]
      have chain := newChain data
      rw [header, Nat.add_zero] at chain ⊢
      exact chain
    · rw [if_neg zero] at header
      rw [if_neg zero, if_pos ((live_recordAt data start).mpr zero)]
      have chain := newChain (store data (start + 4) 2 (recordAt data start).need)
      have shrunk := recordAt_shrunk data start (show 8 + load data (start + 6) 1 ≤ (recordAt data start).need by
        rw [header]
        exact (getNeedRecLen_spec _).1) (show (recordAt data start).need < 2 ^ 16 by omega) inodeNum (recordAt data start).spare fileType name
      have keptFits : ({ recordAt data start with recLen := (recordAt data start).need } : DirRecord).Fits := by
        refine ⟨?_, hal⟩
        change 8 + (entryName data start).length ≤ (recordAt data start).need
        rw [entryName_length, header]
        exact (getNeedRecLen_spec _).1
      rw [← shrunk] at keptFits ⊢
      refine .cons keptFits ?_
      rw [shrunk]
      exact chain

end

end RosKernel.Ext2
