import PickleDevice.Library.StateEffect
import PickleDevice.Library.ByteWords
import PickleDevice.Library.Renaming
import PickleDevice.ArrayDescriptor
import PickleDevice.ArrayIds
import PickleDevice.PickleJob
import PickleDevice.JobBuilding
import PickleDevice.JobFormat
import PickleDevice.IdIndependence
import PickleDevice.Library.Runs
import PickleDevice.AddressRange
import PickleDevice.PVector
import PickleDevice.PVectorHistory
import PickleDevice.SlidingQueue
import PickleDevice.ArrayLinks
import PickleDevice.CSRGraph
import PickleDevice.GraphRanges
import PickleDevice.Wrapper
import PickleDevice.GraphJobs
import PickleDevice.JobChain
import PickleDevice.GraphClient
import PickleDevice.ClientLinks
import PickleDevice.GraphJobHistory
import PickleDevice.JobInterference
import PickleDevice.Library.Interaction
import PickleDevice.LowLevel
import PickleDevice.DeviceManager
import PickleDevice.CommandRuns
import PickleDevice.CommandDelivery
import PickleDevice.PageRuns
import PickleDevice.WatchRanges
import PickleDevice.ConcurrentCommands
import PickleDevice.JobFaults
import PickleDevice.FieldChanges
import PickleDevice.EdgeDirections
import PickleDevice.ManagerRuns
import PickleDevice.FileDescriptors
import PickleDevice.PageRelease
import PickleDevice.Library.Ownership
import PickleDevice.ContainerMoves
import PickleDevice.DescribedRanges
import PickleDevice.GraphOwnership
import PickleDevice.JobPrinting
import PickleDevice.ReadableJobs
import PickleDevice.Library.Segments
import PickleDevice.GraphDump
import PickleDevice.Library.TextFormat
import PickleDevice.GraphFiles
import PickleDevice.IdAssignment
import PickleDevice.Library.Refinement
import PickleDevice.Library.Reservation
import PickleDevice.QueueBuffers
import PickleDevice.QueueRefinement
import PickleDevice.QueueDelivery
import PickleDevice.QueueCells
import PickleDevice.QueueLimits
import PickleDevice.Library.Blocks
import PickleDevice.VectorContents
import PickleDevice.VectorRefinement
import PickleDevice.VectorHistory
import PickleDevice.VectorElements
import PickleDevice.VectorGrowth
import PickleDevice.Library.Selection
import PickleDevice.TopK
import PickleDevice.GraphWalks
import PickleDevice.SourcePicker
import PickleDevice.GraphRelocation
import PickleDevice.QueueOwnership
import PickleDevice.JobReader
import PickleDevice.DeviceSession
import PickleDevice.CreatedJobs
import PickleDevice.GraphSession
