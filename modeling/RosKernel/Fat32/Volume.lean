import RosKernel.Library.Bytes
import RosKernel.Library.Linked
import Mathlib.Order.Interval.Finset.Nat

/-! A mounted FAT32 volume, `kernel/filesys/fat32`: its geometry, its allocation table and its sectors.

Every sector transfer and every buffer allocation succeeds. The copies of the table are kept
alike, so the model has one, and it stands apart from the sectors that clusters name.
-/

set_option autoImplicit false

namespace RosKernel.Fat32

open Library

/-- The least table entry that ends a chain. -/
def endOfChain : Nat := 0x0FFFFFF8

/-- What `Mount` reads from a boot sector it accepts. -/
structure Geometry where
  bytesPerSector : Nat
  sectorsPerCluster : Nat
  firstDataSectorLBA : Nat
  totalClusters : Nat
  rootDirCluster : Nat
  slotted : 32 ∣ bytesPerSector
  sector_pos : 0 < bytesPerSector
  cluster_pos : 0 < sectorsPerCluster
  data_pos : 0 < firstDataSectorLBA
  addressable : totalClusters + 2 ≤ endOfChain

structure Volume where
  fat : Nat → Nat
  nextFreeClusterHint : Nat
  sectors : Nat → Bytes

namespace Geometry

def clusterBytes (g : Geometry) : Nat := g.bytesPerSector * g.sectorsPerCluster

def clusterToLBA (g : Geometry) (cluster : Nat) : Nat :=
  if cluster < 2 then 0 else g.firstDataSectorLBA + (cluster - 2) * g.sectorsPerCluster

/-- A cluster number that names a cluster of the volume. -/
def InRange (g : Geometry) (cluster : Nat) : Prop := 2 ≤ cluster ∧ cluster < g.totalClusters + 2

instance (g : Geometry) (cluster : Nat) : Decidable (g.InRange cluster) := instDecidableAnd

end Geometry

namespace Volume

def getNextCluster (volume : Volume) (currentCluster : Nat) : Nat := volume.fat currentCluster % 2 ^ 28

def setNextCluster (volume : Volume) (cluster nextClusterValue : Nat) : Volume := { volume with
  fat := Function.update volume.fat cluster (nextClusterValue % 2 ^ 28) }

def updateFSInfoHint (volume : Volume) (newHint : Nat) : Volume := { volume with nextFreeClusterHint := newHint }

def isFree (volume : Volume) (cluster : Nat) : Bool := volume.getNextCluster cluster == 0

/-- Where the search for a free cluster begins. -/
def searchStart (g : Geometry) (volume : Volume) : Nat :=
  if volume.nextFreeClusterHint < 2 ∨ g.totalClusters ≤ volume.nextFreeClusterHint then 2
  else volume.nextFreeClusterHint

def findFreeCluster (g : Geometry) (volume : Volume) : Option (Nat × Volume) :=
  let start := volume.searchStart g
  let found := ((List.range' start (g.totalClusters - start)).find? volume.isFree).or
    ((List.range' 2 (start - 2)).find? volume.isFree)
  found.map fun cluster => (cluster, (volume.setNextCluster cluster endOfChain).updateFSInfoHint (cluster + 1))

/-- The cluster that is allocated is linked behind `lastCluster`, if there is one. -/
def allocateCluster (g : Geometry) (volume : Volume) (lastCluster : Nat) : Option (Nat × Volume) :=
  (volume.findFreeCluster g).map fun (newCluster, taken) =>
    (newCluster, if lastCluster = 0 then taken else taken.setNextCluster lastCluster newCluster)

/-- The loop of `FreeClusterChain`; the guard ends it on a cyclic chain. -/
def freeFrom : Nat → Volume → Nat → Nat → Volume × Nat
  | 0, volume, _, minFreed => (volume, minFreed)
  | guard + 1, volume, cur, minFreed =>
    if 2 ≤ cur ∧ cur < endOfChain then
      freeFrom guard (volume.setNextCluster cur 0) (volume.getNextCluster cur) (min cur minFreed)
    else (volume, minFreed)

def freeClusterChain (g : Geometry) (volume : Volume) (startCluster : Nat) : Volume :=
  if startCluster < 2 then volume
  else
    let (freed, minFreed) := freeFrom (g.totalClusters + 3) volume startCluster startCluster
    freed.updateFSInfoHint minFreed

def readCluster (g : Geometry) (volume : Volume) (cluster : Nat) : Bytes := fun pos =>
  volume.sectors (g.clusterToLBA cluster + pos / g.bytesPerSector) (pos % g.bytesPerSector)

def writeCluster (g : Geometry) (volume : Volume) (cluster : Nat) (buffer : Bytes) : Volume :=
  let base := g.clusterToLBA cluster
  { volume with sectors := fun lba offset =>
      if base ≤ lba ∧ lba < base + g.sectorsPerCluster then buffer ((lba - base) * g.bytesPerSector + offset)
      else volume.sectors lba offset }

/-- The cluster a chain goes on to. -/
def next (volume : Volume) (cluster : Nat) : Option Nat :=
  if volume.getNextCluster cluster < endOfChain then some (volume.getNextCluster cluster) else none

/-- The chain of a first cluster; a first cluster of zero stands for none. -/
structure Holds (g : Geometry) (volume : Volume) (startCluster : Nat) (clusters : List Nat) : Prop where
  chain : Chain volume.next (if startCluster = 0 then none else some startCluster) clusters
  inRange : ∀ cluster ∈ clusters, g.InRange cluster

end Volume

end RosKernel.Fat32
