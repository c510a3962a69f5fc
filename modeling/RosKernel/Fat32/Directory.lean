import RosKernel.Fat32.Volume

/-! The directories of a volume, `fat32_helper.cpp`, and the calls on names, `fat32.cpp`.

A directory is a sequence of 32-byte slots in the clusters of a chain. A name stands as UTF-16 in the long slots before the
short one, last part first; sixteen-bit units are naturals, and a string is the list of its bytes without the final zero. The
walks that have a guard keep it. `ReadDirectory` has none and would not end on a cyclic chain; the model gives up after more
clusters than the volume has.

Each call on a name finds the parent directory first, and what it does there stands apart, under a name that ends in `In`. The
calls here go on with the vnode that `Lookup` answers; what the variables of 32 bits make of its address is modelled on top.
-/

set_option autoImplicit false

namespace RosKernel.Fat32

open Library

/-- One slot of a directory. -/
abbrev Slot := Fin 32 → UInt8

abbrev Name := List UInt8

scoped instance slotSize_ne : NeZero 32 := ⟨by decide⟩

def slotOf (bytes : List UInt8) : Slot := fun i => bytes.getD i 0

namespace Slot

section

variable (slot : Slot)
include slot

def neverUsed : Bool := slot 0 == 0x00
def deleted (slot : Slot) : Bool := slot 0 == 0xE5
def isLong (slot : Slot) : Bool := slot 11 == 0x0F
def isDirectory (slot : Slot) : Bool := slot 11 &&& 0x10 != 0

/-- What `FindFreeDirSlots` takes for a slot that may be written. -/
def isFree : Bool := slot.neverUsed || slot.deleted

def isEntry : Bool := !slot.isFree && !slot.isLong

def word (low high : Fin 32) : Nat := (slot low).toNat + 256 * (slot high).toNat

def startCluster : Nat := slot.word 26 27 + 65536 * slot.word 20 21

def fileSize : Nat := slot.word 28 29 + 65536 * slot.word 30 31

def sfn : Name := (List.range 11).map fun i => slot (Fin.ofNat 32 i)

end

end Slot

def cString (buffer : List UInt8) : Name := buffer.takeWhile (· != 0)

def encodeUtf8 (codepoint : Nat) : Name :=
  if codepoint ≤ 0x7F then [UInt8.ofNat codepoint]
  else if codepoint ≤ 0x7FF then [UInt8.ofNat (0xC0 + codepoint / 64), UInt8.ofNat (0x80 + codepoint % 64)]
  else if codepoint ≤ 0xFFFF then
    [UInt8.ofNat (0xE0 + codepoint / 4096), UInt8.ofNat (0x80 + codepoint / 64 % 64), UInt8.ofNat (0x80 + codepoint % 64)]
  else
    [UInt8.ofNat (0xF0 + codepoint / 262144), UInt8.ofNat (0x80 + codepoint / 4096 % 64),
      UInt8.ofNat (0x80 + codepoint / 64 % 64), UInt8.ofNat (0x80 + codepoint % 64)]

/-- `UTF16LE_To_UTF8`; the thirteen units of a slot never fill its 128 bytes. -/
def utf16ToUtf8 : List Nat → Name
  | [] => []
  | [w] =>
    if w = 0 then []
    else if 0xD800 ≤ w ∧ w ≤ 0xDFFF then encodeUtf8 0xFFFD
    else encodeUtf8 w
  | w :: w2 :: rest =>
    if w = 0 then []
    else if 0xD800 ≤ w ∧ w ≤ 0xDBFF then
      if 0xDC00 ≤ w2 ∧ w2 ≤ 0xDFFF then
        encodeUtf8 (0x10000 + ((w - 0xD800) * 1024 + (w2 - 0xDC00))) ++ utf16ToUtf8 rest
      else encodeUtf8 0xFFFD ++ utf16ToUtf8 (w2 :: rest)
    else if 0xDC00 ≤ w ∧ w ≤ 0xDFFF then encodeUtf8 0xFFFD ++ utf16ToUtf8 (w2 :: rest)
    else encodeUtf8 w ++ utf16ToUtf8 (w2 :: rest)

def endsPart (w : Nat) : Bool := w == 0x0000 || w == 0xFFFF

namespace Slot

def name1 (slot : Slot) : List Nat := [slot.word 1 2, slot.word 3 4, slot.word 5 6, slot.word 7 8, slot.word 9 10]

def name2 (slot : Slot) : List Nat :=
  [slot.word 14 15, slot.word 16 17, slot.word 18 19, slot.word 20 21, slot.word 22 23, slot.word 24 25]

def name3 (slot : Slot) : List Nat := [slot.word 28 29, slot.word 30 31]

/-- The units of a long slot; an end mark ends the field it is in. -/
def part (slot : Slot) : List Nat :=
  slot.name1.takeWhile (!endsPart ·) ++ slot.name2.takeWhile (!endsPart ·) ++ slot.name3.takeWhile (!endsPart ·)

def shortName (slot : Slot) : Name :=
  if slot 0 == 0x2E then
    if slot 1 == 0x2E then [0x2E, 0x2E] else [0x2E]
  else
    let base := (slot.sfn.take 8).takeWhile (· != 0x20)
    let extension := (slot.sfn.drop 8).takeWhile (· != 0x20)
    cString (base ++ (if base.isEmpty || extension.isEmpty then [] else [0x2E]) ++ extension)

end Slot

/-- `lfn_buf`, `have_lfn` and `lfn_chars_filled`. -/
structure LongName where
  buffer : Bytes
  haveLfn : Bool
  charsFilled : Nat

namespace LongName

/-- The size of `lfn_buf`. -/
def capacity : Nat := 520

def empty : LongName := ⟨fun _ => 0, false, 0⟩

section

variable (name : LongName)
include name

/-- Dropping a name leaves the rest of the buffer as it is. -/
def reset : LongName := ⟨Function.update name.buffer 0 0, false, 0⟩

def text : Name := cString ((List.range capacity).map name.buffer)

/-- A last part clears the buffer. -/
def restart (isLast : Bool) : LongName :=
  if isLast then ⟨fun _ => 0, name.haveLfn, 0⟩ else name

/-- Copies one part to its place. -/
def place (startPos : Nat) (part : Name) : LongName :=
  let toCopy := min part.length (capacity - 1 - startPos)
  let charsFilled := max name.charsFilled (startPos + toCopy)
  let copied : Bytes := fun i =>
    if startPos ≤ i ∧ i < startPos + toCopy then part.getD (i - startPos) 0 else name.buffer i
  ⟨Function.update copied charsFilled 0, true, charsFilled⟩

/-- What `ReadDirectory` does with a slot whose attribute says that it is long. -/
def take (slot : Slot) : LongName :=
  let seqByte := (slot 0).toNat
  let seqIndex := seqByte % 32
  let isLast := seqByte / 64 % 2 == 1
  if seqIndex = 0 ∨ 20 < seqIndex then name.reset
  else (name.restart isLast).place ((seqIndex - 1) * 13) (utf16ToUtf8 slot.part)

end

end LongName

def sfnChecksum (sfn : Name) : UInt8 :=
  sfn.foldl (fun sum byte => (if sum &&& 1 = 1 then (0x80 : UInt8) else 0) + (sum >>> 1) + byte) 0

def upperCase (c : UInt8) : UInt8 := if 0x61 ≤ c ∧ c ≤ 0x7A then c - 0x20 else c

def illegalInSFN : List UInt8 := [0x22, 0x2A, 0x2F, 0x3A, 0x3C, 0x3E, 0x3F, 0x5C, 0x7C]

/-- What is before and behind the last mark. -/
def splitLast (mark : UInt8) (text : Name) : Option (Name × Name) :=
  let behind := (text.reverse.takeWhile (· != mark)).reverse
  if mark ∈ text then some (text.take (text.length - behind.length - 1), behind) else none

def baseOf (name : Name) : Name :=
  match splitLast 0x2E name with
  | some (base, _) => base
  | none => name

def extensionOf (name : Name) : Name :=
  match splitLast 0x2E name with
  | some (_, extension) => extension
  | none => []

def sanitize (base : Name) : Name :=
  ((base.filter fun c => c != 0x20 && 0x20 ≤ c).map fun c => upperCase (if c ∈ illegalInSFN then 0x5F else c)).take 15

def padTo (width : Nat) (text : Name) : Name := text ++ List.replicate (width - text.length) 0x20

/-- A base of more than eight characters keeps six of them and always takes `~1`. -/
def makeSFNFromName (name : Name) : Name :=
  let b := sanitize (baseOf name)
  let e := ((extensionOf name).map upperCase).take 3
  (if b.length ≤ 8 then padTo 8 b else b.take 6 ++ [0x7E, 0x31]) ++ padTo 3 e

def toUtf16 (name : Name) : List Nat :=
  (name.take 519).map fun c => if c < 0x80 then c.toNat else 0x3F

/-- The unit for a position of the name; the first position behind it gets the terminator. -/
def nameUnit (utf16 : List Nat) (ci : Nat) (insertedTerminator : Bool) : Nat × Bool :=
  match utf16[ci]? with
  | some wc => (wc, insertedTerminator)
  | none => if insertedTerminator then (0xFFFF, true) else (0x0000, true)

def nameUnits (utf16 : List Nat) : List Nat → Bool → List Nat × Bool
  | [], insertedTerminator => ([], insertedTerminator)
  | ci :: rest, insertedTerminator =>
    let unit := nameUnit utf16 ci insertedTerminator
    let others := nameUnits utf16 rest unit.2
    (unit.1 :: others.1, others.2)

def longSlot (seq chk : UInt8) (units : List Nat) : Slot :=
  let low := fun i => UInt8.ofNat (units.getD i 0)
  let high := fun i => UInt8.ofNat (units.getD i 0 / 256)
  slotOf [seq, low 0, high 0, low 1, high 1, low 2, high 2, low 3, high 3, low 4, high 4, 0x0F, 0x00, chk,
    low 5, high 5, low 6, high 6, low 7, high 7, low 8, high 8, low 9, high 9, low 10, high 10, 0x00, 0x00,
    low 11, high 11, low 12, high 12]

/-- The long slots for the parts from `part` down to the first. -/
def longSlots (utf16 : List Nat) (chk : UInt8) (lfnEntries : Nat) : Nat → Bool → List Slot
  | 0, _ => []
  | part + 1, insertedTerminator =>
    let units := nameUnits utf16 (List.range' (part * 13) 13) insertedTerminator
    let seq := UInt8.ofNat (part + 1) ||| (if part + 1 = lfnEntries then 0x40 else 0)
    longSlot seq chk units.1 :: longSlots utf16 chk lfnEntries part units.2

/-- A short slot with the archive attribute and no times. -/
def shortSlot (sfn : Name) (startCluster fileSize : Nat) : Slot :=
  let name := fun i => sfn.getD i 0
  let byte := fun (value i : Nat) => UInt8.ofNat (value / 256 ^ i)
  slotOf [name 0, name 1, name 2, name 3, name 4, name 5, name 6, name 7, name 8, name 9, name 10, 0x20, 0x00, 0, 0, 0, 0, 0, 0, 0,
    byte startCluster 2, byte startCluster 3, 0, 0, 0, 0, byte startCluster 0, byte startCluster 1,
    byte fileSize 0, byte fileSize 1, byte fileSize 2, byte fileSize 3]

/-- Where a slot is: its sector and the byte in it. -/
structure Address where
  lba : Nat
  offset : Nat
deriving DecidableEq

/-- What `ReadDirectory` tells its callback. -/
structure Listed where
  name : Name
  entry : Slot
  address : Address
deriving DecidableEq

def slotAt (data : Bytes) (offset : Nat) : Slot := fun i => data (offset + i)

/-- The comparison of `FindFileInDir`. -/
def sameName (fname want : Name) : Bool := fname.map upperCase == want.map upperCase

/-- The slots of one cluster; a name without an answer behind it means that a slot never used ended the directory. -/
def readSlots : LongName → List (Address × Slot) → List Listed × Option LongName
  | name, [] => ([], some name)
  | name, (address, slot) :: rest =>
    if slot.neverUsed then ([], none)
    else if slot.isLong then readSlots (name.take slot) rest
    else if slot.deleted then readSlots name.reset rest
    else
      let finalName := if name.haveLfn then name.text else slot.shortName
      let others := readSlots name.reset rest
      (⟨finalName, slot, address⟩ :: others.1, others.2)

namespace Volume

def slot (volume : Volume) (address : Address) : Slot := slotAt (volume.sectors address.lba) address.offset

/-- The slots of a cluster as `ReadDirectory` finds them in its buffer. -/
def clusterSlots (g : Geometry) (volume : Volume) (cluster : Nat) : List (Address × Slot) :=
  let data := volume.readCluster g cluster
  (List.range (g.clusterBytes / 32)).map fun i =>
    (⟨g.clusterToLBA cluster + 32 * i / g.bytesPerSector, 32 * i % g.bytesPerSector⟩, slotAt data (32 * i))

def readClusters (g : Geometry) (volume : Volume) : Nat → Nat → LongName → List Listed × Bool
  | 0, _, _ => ([], false)
  | more + 1, cluster, name =>
    if endOfChain ≤ cluster then ([], true)
    else if g.clusterToLBA cluster = 0 then ([], false)
    else
      let (listed, goesOn) := readSlots name (volume.clusterSlots g cluster)
      match goesOn with
      | none => (listed, true)
      | some name =>
        let (others, ok) := volume.readClusters g more (volume.getNextCluster cluster) name
        (listed ++ others, ok)

/-- The entries that `ReadDirectory` reports to a callback that never stops it, and its answer. -/
def readDirectory (g : Geometry) (volume : Volume) (dirStartCluster : Nat) : List Listed × Bool :=
  volume.readClusters g (g.totalClusters + 1) dirStartCluster LongName.empty

def findFileInDir (g : Geometry) (volume : Volume) (name : Name) (dirStartCluster : Nat) : Option Listed :=
  (volume.readDirectory g dirStartCluster).1.find? fun listed => sameName listed.name name

def writeSlot (volume : Volume) (address : Address) (slot : Slot) : Volume := { volume with
  sectors := Function.update volume.sectors address.lba fun offset =>
    if address.offset ≤ offset ∧ offset < address.offset + 32 then slot (Fin.ofNat 32 (offset - address.offset))
    else volume.sectors address.lba offset }

/-- The scan of one sector for a run of free slots. -/
def freeRun (needed : Nat) (data : Bytes) : List Nat → Nat → Nat → Option Nat
  | [], _, _ => none
  | i :: rest, consec, startOff =>
    if (slotAt data (32 * i)).isFree then
      let startOff := if consec = 0 then 32 * i else startOff
      if needed ≤ consec + 1 then some startOff else freeRun needed data rest (consec + 1) startOff
    else freeRun needed data rest 0 startOff

def freeInCluster (g : Geometry) (volume : Volume) (needed cluster : Nat) : Option Address :=
  (List.range g.sectorsPerCluster).findSome? fun s =>
    let sectorLBA := g.clusterToLBA cluster + s
    (freeRun needed (volume.sectors sectorLBA) (List.range (g.bytesPerSector / 32)) 0 0).map fun offset => ⟨sectorLBA, offset⟩

def findFreeFrom (g : Geometry) (volume : Volume) (needed : Nat) : Nat → Nat → Option Address
  | 0, _ => none
  | guard + 1, cluster =>
    if endOfChain ≤ cluster ∨ cluster < 2 then none
    else (volume.freeInCluster g needed cluster).or (volume.findFreeFrom g needed guard (volume.getNextCluster cluster))

def findFreeDirSlots (g : Geometry) (volume : Volume) (dirStartCluster needed : Nat) : Option Address :=
  if needed = 0 then none else volume.findFreeFrom g needed (g.totalClusters + 2) dirStartCluster

def lastInChain (volume : Volume) : Nat → Nat → Nat
  | 0, last => last
  | guard + 1, last =>
    let next := volume.getNextCluster last
    if endOfChain ≤ next ∨ next = 0 then last else volume.lastInChain guard next

/-- One attempt to expand a directory: a cluster of zeros is put behind its last. -/
def expandDirectory (g : Geometry) (volume : Volume) (dirStartCluster : Nat) : Option Volume :=
  let last := volume.lastInChain (g.totalClusters + 3) dirStartCluster
  (volume.allocateCluster g last).map fun (newc, linked) => linked.writeCluster g newc fun _ => 0

def makeRoom (g : Geometry) (dirStartCluster needed : Nat) : Nat → Volume → Volume × Option Address
  | attempts, volume =>
    match volume.findFreeDirSlots g dirStartCluster needed with
    | some found => (volume, some found)
    | none =>
      match attempts with
      | 0 => (volume, none)
      | more + 1 =>
        match volume.expandDirectory g dirStartCluster with
        | none => (volume, none)
        | some expanded => makeRoom g dirStartCluster needed more expanded

def maxExpandAttempts : Nat := 4

end Volume

/-- The slot `j` places behind the one that was found. -/
def Address.shift (g : Geometry) (found : Address) (j : Nat) : Address :=
  let bytePos := found.offset + 32 * j
  ⟨found.lba + bytePos / g.bytesPerSector, bytePos % g.bytesPerSector⟩

/-- The slots that `CreateDirectoryEntry` writes, the short one last. -/
def entrySlots (name : Name) (startCluster fileSize : Nat) : List Slot :=
  let utf16 := toUtf16 name
  let lfnEntries := (utf16.length + 12) / 13
  let sfn := makeSFNFromName name
  longSlots utf16 (sfnChecksum sfn) lfnEntries lfnEntries false ++ [shortSlot sfn startCluster fileSize]

namespace Volume

def writeSlots (g : Geometry) (found : Address) : Volume → Nat → List Slot → Volume
  | volume, _, [] => volume
  | volume, j, slot :: rest => writeSlots g found (volume.writeSlot (found.shift g j) slot) (j + 1) rest

/-- The volume afterwards and, on success, where the short slot is. -/
def createDirectoryEntry (g : Geometry) (volume : Volume) (dirStartCluster : Nat) (name : Name)
    (startCluster fileSize : Nat) : Volume × Option Address :=
  let utf16 := toUtf16 name
  if 255 < utf16.length then (volume, none)
  else
    let lfnEntries := (utf16.length + 12) / 13
    match volume.makeRoom g dirStartCluster (lfnEntries + 1) maxExpandAttempts with
    | (expanded, none) => (expanded, none)
    | (expanded, some found) =>
      (expanded.writeSlots g found 0 (entrySlots name startCluster fileSize), some (found.shift g lfnEntries))

def markDeleted (volume : Volume) (address : Address) : Volume :=
  volume.writeSlot address (Function.update (volume.slot address) 0 0xE5)

def chainFrom (volume : Volume) : Nat → Nat → List Nat
  | 0, _ => []
  | guard + 1, c => if 2 ≤ c ∧ c < endOfChain then c :: volume.chainFrom guard (volume.getNextCluster c) else []

/-- Long slots are marked from the short slot backwards. -/
def deleteBackwards : Volume → List Address → Volume
  | volume, [] => volume
  | volume, address :: rest =>
    let slot := volume.slot address
    if slot.neverUsed || !slot.isLong then volume else deleteBackwards (volume.markDeleted address) rest

def removeDirectoryEntryAndLFNs (g : Geometry) (volume : Volume) (dirStartCluster : Nat) (entry : Address) : Volume :=
  let marked := volume.markDeleted entry
  let sectorLBAs := (marked.chainFrom (g.totalClusters + 3) dirStartCluster).flatMap fun c =>
    (List.range g.sectorsPerCluster).map (g.clusterToLBA c + ·)
  let inSector := fun lba bytes => (List.range (bytes / 32)).map fun i => (⟨lba, 32 * i⟩ : Address)
  if entry.lba ∈ sectorLBAs then
    let before := (sectorLBAs.takeWhile (· != entry.lba)).flatMap fun lba => inSector lba g.bytesPerSector
    marked.deleteBackwards (before ++ inSector entry.lba entry.offset).reverse
  else marked

end Volume

structure VNode where
  startCluster : Nat
  fileSize : Nat
  isDirectory : Bool
  entry : Address
deriving DecidableEq

def slash : UInt8 := 0x2F

/-- The tokens of `Lookup`; slashes in a row count once behind a token. -/
def tokensOf : Nat → Name → List Name
  | 0, _ => []
  | _ + 1, [] => []
  | more + 1, text =>
    text.takeWhile (· != slash) :: tokensOf more ((text.dropWhile (· != slash)).dropWhile (· == slash))

def tokens (path : Name) : List Name :=
  match path with
  | [] => []
  | first :: rest => if first = slash then tokensOf rest.length rest else tokensOf path.length path

/-- The parent and the name of a path that starts at the root; the parent has to fit in 256 bytes. -/
def parentAndName (path : Name) : Option (Name × Name) :=
  if path.head? != some slash then none
  else
    match splitLast slash path with
    | none => none
    | some (parent, name) =>
      if name.isEmpty || 256 ≤ parent.length then none else some (if parent.isEmpty then [slash] else parent, name)

namespace Volume

/-- The entry at the end of a list of names. No name but the last is checked to be a directory's. -/
def walk (g : Geometry) (volume : Volume) : List Name → Nat → Option Listed
  | [], _ => none
  | name :: rest, cluster =>
    match volume.findFileInDir g name cluster with
    | none => none
    | some listed => if rest.isEmpty then some listed else volume.walk g rest listed.entry.startCluster

def vnodeOf (listed : Listed) : VNode :=
  ⟨listed.entry.startCluster, listed.entry.fileSize, listed.entry.isDirectory, listed.address⟩

def lookup (g : Geometry) (volume : Volume) (path : Name) : Option VNode :=
  if path = [slash] then some ⟨g.rootDirCluster, 0, true, ⟨0, 0⟩⟩
  else (volume.walk g (tokens path) g.rootDirCluster).map vnodeOf

/-- `Lookup` of a parent, which has to be a directory. -/
def lookupDirectory (g : Geometry) (volume : Volume) (path : Name) : Option Nat :=
  match volume.lookup g path with
  | none => none
  | some node => if node.isDirectory then some node.startCluster else none

def createNodeIn (g : Geometry) (volume : Volume) (parentCluster : Nat) (fileName : Name) : Volume × Option VNode :=
  match volume.createDirectoryEntry g parentCluster fileName 0 0 with
  | (after, none) => (after, none)
  | (after, some entry) => (after, some ⟨0, 0, false, entry⟩)

def deleteIn (g : Geometry) (volume : Volume) (dirStartCluster : Nat) (name : Name) : Volume × Bool :=
  match volume.findFileInDir g name dirStartCluster with
  | none => (volume, false)
  | some de =>
    if de.entry.isDirectory then (volume, false)
    else ((volume.freeClusterChain g de.entry.startCluster).removeDirectoryEntryAndLFNs g dirStartCluster de.address, true)

def renameIn (g : Geometry) (volume : Volume) (oldParent : Nat) (oldName : Name) (newParent : Nat) (newName : Name) :
    Volume × Bool :=
  match volume.findFileInDir g oldName oldParent with
  | none => (volume, false)
  | some oldDe =>
    if oldDe.entry.isDirectory then (volume, false)
    else if (volume.findFileInDir g newName newParent).isSome then (volume, false)
    else
      match volume.createDirectoryEntry g newParent newName oldDe.entry.startCluster oldDe.entry.fileSize with
      | (after, none) => (after, false)
      | (after, some _) => (after.removeDirectoryEntryAndLFNs g oldParent oldDe.address, true)

end Volume

def dotSlot (dots cluster : Nat) : Slot :=
  let byte := fun (i : Nat) => UInt8.ofNat (cluster / 256 ^ i)
  slotOf (List.replicate dots 0x2E ++ List.replicate (11 - dots) 0x20 ++ [0x10, 0, 0, 0, 0, 0, 0, 0, 0, byte 2, byte 3, 0, 0, 0, 0,
    byte 0, byte 1, 0, 0, 0, 0])

namespace Volume

def dotCluster (newCl parentCl : Nat) : Bytes := fun pos =>
  if pos < 32 then dotSlot 1 newCl (Fin.ofNat 32 pos)
  else if pos < 64 then dotSlot 2 (if parentCl < 2 then 0 else parentCl) (Fin.ofNat 32 (pos - 32))
  else 0

def markDirectory (volume : Volume) (entry : Address) : Volume :=
  volume.writeSlot entry (Function.update (volume.slot entry) 11 0x10)

def mkDirIn (g : Geometry) (volume : Volume) (parentCl : Nat) (newName : Name) : Volume × Bool :=
  match volume.allocateCluster g 0 with
  | none => (volume, false)
  | some (newCl, taken) =>
    let written := (taken.setNextCluster newCl 0x0FFFFFFF).writeCluster g newCl (dotCluster newCl parentCl)
    match written.createDirectoryEntry g parentCl newName newCl 0 with
    | (after, none) => (after.freeClusterChain g newCl, false)
    | (after, some entry) => (after.markDirectory entry, true)

/-- A directory that lists nothing but `.` and `..`. -/
def isEmptyDirectory (g : Geometry) (volume : Volume) (cluster : Nat) : Bool :=
  let (listed, ok) := volume.readDirectory g cluster
  ok && listed.all fun entry => entry.name == [0x2E] || entry.name == [0x2E, 0x2E]

def rmDirIn (g : Geometry) (volume : Volume) (dirStartCluster : Nat) (name : Name) : Volume × Bool :=
  match volume.findFileInDir g name dirStartCluster with
  | none => (volume, false)
  | some de =>
    if !de.entry.isDirectory then (volume, false)
    else if !volume.isEmptyDirectory g de.entry.startCluster then (volume, false)
    else ((volume.freeClusterChain g de.entry.startCluster).removeDirectoryEntryAndLFNs g dirStartCluster de.address, true)

section

variable (g : Geometry) (volume : Volume)
include g volume

/-- The parent of a new node; a path with no slash, or with one at its start only, is in the root directory. -/
def nodeParent (path : Name) : Option (Nat × Name) :=
  match splitLast slash path with
  | none => some (g.rootDirCluster, path)
  | some (parentPath, fileName) =>
    if parentPath.isEmpty then some (g.rootDirCluster, fileName)
    else (volume.lookupDirectory g parentPath).map fun parent => (parent, fileName)

def createNode (path : Name) : Volume × Option VNode :=
  if path.isEmpty || path == [slash] then (volume, none)
  else
    match volume.nodeParent g path with
    | none => (volume, none)
    | some (parent, fileName) => if fileName.isEmpty then (volume, none) else volume.createNodeIn g parent fileName

/-- A call on the directory and the name that a path leads to. -/
def onParent (path : Name) (call : Nat → Name → Volume × Bool) : Volume × Bool :=
  match parentAndName path with
  | none => (volume, false)
  | some (parentPath, name) =>
    match volume.lookupDirectory g parentPath with
    | none => (volume, false)
    | some parent => call parent name

def delete (path : Name) : Volume × Bool :=
  volume.onParent g path fun parent name => volume.deleteIn g parent name

def rename (oldPath newPath : Name) : Volume × Bool :=
  match parentAndName newPath with
  | none => (volume, false)
  | some (newParentPath, newName) =>
    volume.onParent g oldPath fun oldParent oldName =>
      match volume.lookupDirectory g newParentPath with
      | none => (volume, false)
      | some newParent => volume.renameIn g oldParent oldName newParent newName

def mkDir (path : Name) : Volume × Bool :=
  if path.head? != some slash then (volume, false)
  else if (volume.lookup g path).isSome then (volume, false)
  else volume.onParent g path fun parent name => volume.mkDirIn g parent name

def rmDir (path : Name) : Volume × Bool :=
  volume.onParent g path fun parent name => volume.rmDirIn g parent name

end

end Volume

end RosKernel.Fat32
