import RosKernel.Ext2.Consistency
import RosKernel.Ext2.DirRestores
import RosKernel.Ext2.Listings
import RosKernel.Ext2.Truncating
import RosKernel.Fat32.DirectoryRuns
import RosKernel.Fat32.Handles
import RosKernel.Fat32.Mounting
import RosKernel.Fat32.Allocation
import RosKernel.Fat32.PathLookup
import RosKernel.Fat32.Table
import RosKernel.Fat32.UnicodeNames
import RosKernel.Filesys.BlockNodes
import RosKernel.Filesys.Metadata
import RosKernel.Filesys.MountLookup
import RosKernel.Filesys.PartitionTable
import RosKernel.Filesys.PipeWaking
import RosKernel.Filesys.TeardownRuns
import RosKernel.Filesys.TtyRuns
import RosKernel.Memory.BootFrames
import RosKernel.Memory.DmaRuns
import RosKernel.Memory.FrameOwnership
import RosKernel.Memory.HeapGrowth
import RosKernel.Memory.MapFailures
import RosKernel.Memory.UserRanges
import RosKernel.Network.AdvertisedWindow
import RosKernel.Network.Deferred
import RosKernel.Network.Dhcp
import RosKernel.Network.DnsNames
import RosKernel.Network.InternetChecksum
import RosKernel.Network.SequenceShift
import RosKernel.Network.StateChanges
import RosKernel.Process.Conservation
import RosKernel.Process.Containment
import RosKernel.Process.ElfLoads
import RosKernel.Process.ExecFailures
import RosKernel.Process.ExecStart
import RosKernel.Process.FaultRights
import RosKernel.Process.MunmapExact
import RosKernel.Process.PoolIsolation
import RosKernel.Process.Walkers
import RosKernel.Tasking.Contexts
import RosKernel.Tasking.Deadlines
import RosKernel.Tasking.GroupMoves
import RosKernel.Tasking.Lag
import RosKernel.Tasking.OrderedQueue
import RosKernel.Tasking.Placement
import RosKernel.Tasking.Reaping
import RosKernel.Tasking.RwExclusion
import RosKernel.Tasking.TimerChecks
