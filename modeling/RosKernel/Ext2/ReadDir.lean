import RosKernel.Library.Bytes
import RosKernel.Library.Fitting

/-! `EXT2FileSystem::ReadDir`, `kernel/filesys/ext2/ext2_driver.cpp`, and the records that it reads.

A well-formed block is a chain of records from its first byte to its last; the scans go by the lengths alone, and so they see
the records of the chain. The position of a directory counts the entries returned. Its blocks do not change while it is
listed, so they are looked up before they are scanned.
-/

set_option autoImplicit false

namespace RosKernel.Ext2

open Library List

section

/-- The blocks of a volume; none when the device does not read one. -/
structure Device where
  blockSize : Nat
  readBlock : Nat → Option Bytes

/-- The blocks that an indirect block points to. -/
def Device.pointers (dev : Device) (blockNum : Nat) : List Nat :=
  match dev.readBlock blockNum with
  | none => []
  | some data => ((range (dev.blockSize / 4)).map fun j => load data (4 * j) 4).filter (· ≠ 0)

/-- The data blocks under a block, through `depth` levels of indirect blocks. -/
def Device.blocksUnder (dev : Device) : Nat → Nat → List Nat
  | 0, blockNum => [blockNum]
  | depth + 1, blockNum => (dev.pointers blockNum).flatMap (dev.blocksUnder depth)

def Device.dataBlocks (dev : Device) (iBlock : Nat → Nat) : List Nat :=
  (range 12 |>.filter (iBlock · ≠ 0)).map iBlock ++
    [1, 2, 3].flatMap fun depth => if iBlock (11 + depth) = 0 then [] else dev.blocksUnder depth (iBlock (11 + depth))

/-- What a call has listed so far, and the bytes left in its buffer. -/
structure Listing where
  seen : Nat
  out : List UInt8
  remain : Nat

/-- An entry with an inode and a name; none when the name does not fit. -/
def Listing.entry (listing : Listing) (skip : Nat) (name : List UInt8) : Option Listing :=
  if listing.seen < skip then some { listing with seen := listing.seen + 1 }
  else if listing.remain < name.length + 1 then none
  else some ⟨listing.seen + 1, listing.out ++ (name ++ [0]), listing.remain - (name.length + 1)⟩

def entryName (data : Bytes) (offset : Nat) : List UInt8 :=
  (range (load data (offset + 6) 1)).map fun i => data (offset + 8 + i)

def entryUsed (data : Bytes) (offset : Nat) : Bool := load data offset 4 != 0 && load data (offset + 6) 1 != 0

/-- `scan_dir_block` from an offset; an entry is at least a byte long. -/
def scanDirBlock (blockSize skip : Nat) (data : Bytes) : Nat → Nat → Listing → Listing × Bool
  | 0, _, listing => (listing, true)
  | fuel + 1, offset, listing =>
    if blockSize ≤ offset then (listing, true)
    else
      let recLen := load data (offset + 4) 2
      if recLen = 0 then (listing, true)
      else if entryUsed data offset then
        match listing.entry skip (entryName data offset) with
        | none => (listing, false)
        | some listing => scanDirBlock blockSize skip data fuel (offset + recLen) listing
      else scanDirBlock blockSize skip data fuel (offset + recLen) listing

/-- The data blocks one after another, until a name does not fit or a block is not read. -/
def Device.scan (dev : Device) (skip : Nat) : List Nat → Listing → Listing
  | [], listing => listing
  | blockNum :: blocks, listing =>
    match dev.readBlock blockNum with
    | none => listing
    | some data =>
      let scanned := scanDirBlock dev.blockSize skip data dev.blockSize 0 listing
      if scanned.2 then dev.scan skip blocks scanned.1 else scanned.1

/-- `ReadDir` of a directory: the bytes of the buffer and the new position. -/
def Device.readDir (dev : Device) (iBlock : Nat → Nat) (position size : Nat) : List UInt8 × Nat :=
  if size = 0 then ([], position)
  else
    let listing := dev.scan position (dev.dataBlocks iBlock) ⟨0, [], size⟩
    (listing.out, listing.seen)

def blockNames (blockSize : Nat) (data : Bytes) : Nat → Nat → List (List UInt8)
  | 0, _ => []
  | fuel + 1, offset =>
    if blockSize ≤ offset ∨ load data (offset + 4) 2 = 0 then []
    else
      let rest := blockNames blockSize data fuel (offset + load data (offset + 4) 2)
      if entryUsed data offset then entryName data offset :: rest else rest

def Device.namesIn (dev : Device) : List Nat → List (List UInt8)
  | [] => []
  | blockNum :: blocks =>
    match dev.readBlock blockNum with
    | none => []
    | some data => blockNames dev.blockSize data dev.blockSize 0 ++ dev.namesIn blocks

def Device.names (dev : Device) (iBlock : Nat → Nat) : List (List UInt8) := dev.namesIn (dev.dataBlocks iBlock)

def terminated (names : List (List UInt8)) : List UInt8 := names.flatMap (· ++ [0])

def nameCost (name : List UInt8) : Nat := name.length + 1

def batch (names : List (List UInt8)) (position size : Nat) : List (List UInt8) := fitting nameCost size (names.drop position)

/-- Entries one after another, until one does not fit. -/
def Listing.entries (skip : Nat) : List (List UInt8) → Listing → Listing × Bool
  | [], listing => (listing, true)
  | name :: names, listing =>
    match listing.entry skip name with
    | none => (listing, false)
    | some listing => Listing.entries skip names listing

variable {dev : Device} {skip : Nat} {data : Bytes} {names : List (List UInt8)} {listing : Listing}

theorem scanDirBlock_eq (blockSize fuel off : Nat) (listing : Listing) : scanDirBlock blockSize skip data fuel off listing =
    Listing.entries skip (blockNames blockSize data fuel off) listing := by
  induction fuel generalizing off listing with
  | zero => rfl
  | succ fuel ih =>
    unfold scanDirBlock blockNames
    by_cases beyond : blockSize ≤ off
    · simp [beyond, Listing.entries]
    · by_cases last : load data (off + 4) 2 = 0
      · simp [beyond, last, Listing.entries]
      · simp only [beyond, last, or_self, if_false, ih]
        split
        · rw [Listing.entries]
        · rfl

theorem entries_append (names more : List (List UInt8)) (listing : Listing) : Listing.entries skip (names ++ more) listing =
    if (Listing.entries skip names listing).2 then Listing.entries skip more (Listing.entries skip names listing).1
    else Listing.entries skip names listing := by
  induction names generalizing listing with
  | nil => rfl
  | cons name names ih =>
    rw [cons_append, Listing.entries, Listing.entries]
    cases listing.entry skip name with
    | none => rfl
    | some next => exact ih next

theorem scan_eq (blocks : List Nat) (listing : Listing) : dev.scan skip blocks listing =
    (Listing.entries skip (dev.namesIn blocks) listing).1 := by
  induction blocks generalizing listing with
  | nil => rfl
  | cons blockNum blocks ih =>
    unfold Device.scan Device.namesIn
    cases dev.readBlock blockNum with
    | none => rfl
    | some data =>
      dsimp only
      rw [scanDirBlock_eq, entries_append]
      split
      · exact ih _
      · rfl

theorem entries_fst (skip : Nat) (names : List (List UInt8)) (listing : Listing) :
    (Listing.entries skip names listing).1.out =
        listing.out ++ terminated (fitting nameCost listing.remain (names.drop (skip - listing.seen))) ∧
      (Listing.entries skip names listing).1.seen = listing.seen + min (skip - listing.seen) names.length +
        (fitting nameCost listing.remain (names.drop (skip - listing.seen))).length := by
  induction names generalizing listing with
  | nil => simp [Listing.entries, fitting, terminated]
  | cons name names ih =>
    rw [Listing.entries]
    unfold Listing.entry
    by_cases pre : listing.seen < skip
    · have left : skip - listing.seen = (skip - (listing.seen + 1)) + 1 := by omega
      rw [if_pos pre, left]
      obtain ⟨out, seen⟩ := ih { listing with seen := listing.seen + 1 }
      refine ⟨out, seen.trans ?_⟩
      simp only [length_cons, drop_succ_cons]
      omega
    · have h : skip - listing.seen = 0 := by omega
      rw [if_neg pre, h]
      by_cases full : listing.remain < name.length + 1
      · rw [if_pos full]
        simp [fitting, nameCost, full, terminated]
      · rw [if_neg full]
        obtain ⟨out, seen⟩ := ih ⟨listing.seen + 1, listing.out ++ (name ++ [0]), listing.remain - (name.length + 1)⟩
        have next : skip - (listing.seen + 1) = 0 := by omega
        rw [next, drop_zero] at out seen
        rw [drop_zero, fitting, if_neg (show ¬ listing.remain < nameCost name from full)]
        refine ⟨out.trans ?_, seen.trans ?_⟩
        · simp [terminated, nameCost]
        · simp [nameCost]
          omega

theorem readDir_eq (iBlock : Nat → Nat) {pos size : Nat} (room : size ≠ 0) (hin : pos ≤ (dev.names iBlock).length) :
    dev.readDir iBlock pos size =
      (terminated (batch (dev.names iBlock) pos size), pos + (batch (dev.names iBlock) pos size).length) := by
  unfold Device.readDir
  rw [if_neg room, scan_eq]
  obtain ⟨out, seen⟩ := entries_fst pos (dev.names iBlock) ⟨0, [], size⟩
  refine Prod.ext (out.trans rfl) (seen.trans ?_)
  simp only [Nat.sub_zero, Nat.zero_add, Nat.min_eq_left hin]
  rfl

theorem blockNames_short (blockSize fuel off : Nat) : ∀ name ∈ blockNames blockSize data fuel off, name ≠ [] ∧ name.length < 256 := by
  induction fuel generalizing off with
  | zero => exact fun _ mem => nomatch mem
  | succ fuel ih =>
    intro name mem
    unfold blockNames at mem
    split at mem
    case isTrue => exact nomatch mem
    case isFalse =>
    split at mem
    case isFalse => exact ih _ name mem
    case isTrue used =>
      rcases mem_cons.mp mem with rfl | mem
      · have short : load data (off + 6) 1 < 256 ^ 1 := load_lt ..
        simp [entryUsed] at used
        constructor
        · simp [entryName, used.2]
        · simpa [entryName] using short
      · exact ih _ name mem

theorem names_short (iBlock : Nat → Nat) : ∀ name ∈ dev.names iBlock, name ≠ [] ∧ name.length < 256 := by
  unfold Device.names
  induction dev.dataBlocks iBlock with
  | nil => exact fun _ mem => nomatch mem
  | cons blockNum blocks ih =>
    intro name mem
    unfold Device.namesIn at mem
    cases read : dev.readBlock blockNum with
    | none =>
      rw [read] at mem
      exact nomatch mem
    | some data =>
      rw [read] at mem
      rcases mem_append.mp mem with mem | mem
      · exact blockNames_short _ _ _ name mem
      · exact ih name mem

end

/-- What the header of a record says, and the name behind it. -/
structure DirRecord where
  inode : Nat
  recLen : Nat
  name : List UInt8
deriving DecidableEq

def recordAt (data : Bytes) (offset : Nat) : DirRecord :=
  ⟨load data offset 4, load data (offset + 4) 2, entryName data offset⟩

/-- A record with an inode is an entry of the directory. -/
def DirRecord.live (record : DirRecord) : Bool := record.inode != 0

/-- A record has room for its name, and its length is a multiple of 4. -/
structure DirRecord.Fits (record : DirRecord) : Prop where
  room : 8 + record.name.length ≤ record.recLen
  aligned : 4 ∣ record.recLen

/-- Records one behind the other, from an offset to another. -/
inductive Records (data : Bytes) : Nat → List DirRecord → Nat → Prop
  | nil {offset : Nat} : Records data offset [] offset
  | cons {offset stop : Nat} {records : List DirRecord} : (recordAt data offset).Fits →
      Records data (offset + (recordAt data offset).recLen) records stop → Records data offset (recordAt data offset :: records) stop

variable {data other : Bytes} {offset middle stop : Nat} {records first second : List DirRecord} {record : DirRecord}

theorem entryName_length (data : Bytes) (offset : Nat) : (entryName data offset).length = load data (offset + 6) 1 := by
  rw [entryName, length_map, length_range]

namespace Records

theorem le (chain : Records data offset records stop) : offset ≤ stop := by
  induction chain with
  | nil => exact le_rfl
  | cons _ _ ih => exact (Nat.le_add_right ..).trans ih

theorem lt_of_cons (chain : Records data offset (record :: records) stop) : offset + record.recLen ≤ stop ∧ 8 ≤ record.recLen := by
  cases chain with
  | cons fits rest => exact ⟨rest.le, (Nat.le_add_right ..).trans fits.room⟩

theorem eq_nil (chain : Records data offset records offset) : records = [] := by
  cases chain with
  | nil => rfl
  | cons fits rest =>
    have room := fits.room
    have behind := rest.le
    omega

theorem append (chain : Records data offset first middle) (rest : Records data middle second stop) :
    Records data offset (first ++ second) stop := by
  induction chain with
  | nil => exact rest
  | cons fits _ ih => exact .cons fits (ih rest)

theorem split (chain : Records data offset (first ++ second) stop) :
    ∃ middle, Records data offset first middle ∧ Records data middle second stop := by
  induction first generalizing offset with
  | nil => exact ⟨offset, .nil, chain⟩
  | cons record first ih =>
    cases chain with
    | cons fits rest =>
      obtain ⟨middle, left, right⟩ := ih rest
      exact ⟨middle, .cons fits left, right⟩

theorem congr (chain : Records data offset records stop) (eq : SameBytes data other offset (stop - offset)) :
    Records other offset records stop := by
  induction chain with
  | nil => exact .nil
  | @cons offset stop records fits rest ih =>
    have room := fits.room
    have behind := rest.le
    have length : (entryName data offset).length = load data (offset + 6) 1 := entryName_length data offset
    have named : (recordAt data offset).name.length = load data (offset + 6) 1 := length
    have header : recordAt other offset = recordAt data offset := by
      have count : load other (offset + 6) 1 = load data (offset + 6) 1 :=
        load_congr (eq.mono (by omega) (by omega))
      refine DirRecord.mk.injEq .. |>.mpr ⟨load_congr (eq.mono (by omega) (by omega)), load_congr (eq.mono (by omega) (by omega)), ?_⟩
      unfold entryName
      rw [count]
      refine map_congr_left fun i mem => ?_
      rw [mem_range] at mem
      exact eq (offset + 8 + i) (by omega) (by omega)
    rw [← header] at fits ⊢
    refine .cons fits ?_
    rw [header]
    exact ih (eq.mono (Nat.le_add_right ..) (by omega))

end Records

/-- A record that `ReadDir` returns. -/
def DirRecord.used (record : DirRecord) : Bool := record.inode != 0 && record.name.length != 0

theorem Records.blockNames_eq {blockSize fuel : Nat} (chain : Records data offset records blockSize) (enough : blockSize ≤ offset + fuel) :
    blockNames blockSize data fuel offset = (records.filter DirRecord.used).map DirRecord.name := by
  induction fuel generalizing offset records with
  | zero =>
    obtain rfl : offset = blockSize := le_antisymm chain.le enough
    rw [chain.eq_nil]
    rfl
  | succ fuel ih =>
    cases chain with
    | nil => rw [blockNames, if_pos (.inl le_rfl), filter_nil, map_nil]
    | cons fits rest =>
      have room := fits.room
      have behind := rest.le
      have length : (recordAt data offset).recLen = load data (offset + 4) 2 := rfl
      have isUsed : (recordAt data offset).used = entryUsed data offset := by
        unfold DirRecord.used entryUsed recordAt
        rw [entryName_length]
      rw [blockNames, if_neg (by omega), filter_cons, isUsed]
      rw [← length, ih rest (by omega)]
      split <;> rfl

end RosKernel.Ext2
