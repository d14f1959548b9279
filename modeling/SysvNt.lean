import SysvNt.BouncedIo
import SysvNt.CloneIsolation
import SysvNt.CreateExclusive
import SysvNt.CreateExisting
import SysvNt.DescriptorCalls
import SysvNt.ElfBounds
import SysvNt.Enumeration
import SysvNt.ForkRuns
import SysvNt.Gate
import SysvNt.HandleRuns
import SysvNt.InitialStack
import SysvNt.Interrupts
import SysvNt.LinkReads
import SysvNt.MountRuns
import SysvNt.NameRoundTrip
import SysvNt.NameChecks
import SysvNt.OpenFailure
import SysvNt.OpenedRights
import SysvNt.PipeWrites
import SysvNt.ReadCalls
import SysvNt.SetTimes
import SysvNt.VmaTruth
import SysvNt.ThreadRuns
import SysvNt.WalkReference
import SysvNt.WorkingDirectory
import SysvNt.WrittenModes
import SysvNt.Renames
import SysvNt.MountLookup
import SysvNt.VmaRender
import SysvNt.UserPaths
import SysvNt.DeviceNumbers
import SysvNt.PipeCreation
import SysvNt.DirectoryReads
import SysvNt.Positions
import SysvNt.SynthNames
import SysvNt.HeaderAddress
import SysvNt.DescriptorSessions
import SysvNt.SubstrateN
import SysvNt.MapsListing
import SysvNt.ThreadContexts
import SysvNt.SpaceMemory
import SysvNt.PathComposition
import SysvNt.TaskFailures
import SysvNt.TaskSessions
import SysvNt.TaskOpenFiles
import SysvNt.HostAccount
import SysvNt.DirectoryBuffers
import SysvNt.AttributeBuffers
