import Blueman.Library.LittleEndian
import Blueman.Library.ByteMachine
import Blueman.Library.ByteScan
import Blueman.BlePacket
import Blueman.MutateStrategy
import Blueman.Mutator
import Blueman.Library.NearestFloat
import Blueman.PacketSelection
import Blueman.MutatorFullStack2
import Blueman.MutatorFullStack2Frame
import Blueman.MutatorRandom
import Blueman.MutatorAfl4
import Blueman.MutatorBounds
import Blueman.MutatorBuild
import Blueman.HijackHook
import Blueman.PacketRecord
import Blueman.RunOutcome
import Blueman.Coverage
import Blueman.Interceptor
import Blueman.Library.Execution
import Blueman.Library.LockStep
import Blueman.FuzzRun
import Blueman.RunLockStep
import Blueman.CrashReproducer
import Blueman.QueueCampaign
import Blueman.SeedCampaign
import Blueman.Replay
import Blueman.MutatorFullStack2Flag
import Blueman.KeptSeeds
import Blueman.SeedNames
import Blueman.SeedHistory
import Blueman.LengthByte
import Blueman.KeptPackets
import Blueman.Library.RingList
import Blueman.SeedQueue
import Blueman.StartFuzzer
import Blueman.Startup
import Blueman.Library.RewoundFile
import Blueman.RunLogs
import Blueman.PacketCount
import Blueman.HavocEngines
import Blueman.LayerFields
import Blueman.AflLength
import Blueman.NewBits
import Blueman.ErrorSpin
import Blueman.TestDriver
import Blueman.Library.SignalTables
import Blueman.SignalHandlers
import Blueman.Library.RunningMaximum
import Blueman.DeltaPoint
import Blueman.DeltaSplit
import Blueman.RecordCapacity
import Blueman.HavocRanges
import Blueman.Divisors
import Blueman.Library.StepFunction
import Blueman.CoverageTable
import Blueman.IntrusiveList
import Blueman.PortableSeed
import Blueman.CopyLoop
import Blueman.Library.NamedFiles
import Blueman.RunReports
import Blueman.ErrorLoop
import Blueman.RunLiveness
import Blueman.RunSchedules
import Blueman.ErrorReports
import Blueman.CampaignChart
import Blueman.StrategySchedule
import Blueman.ReachableBytes
import Blueman.RandomOutputs
import Blueman.ResumedCampaign
import Blueman.TargetView
import Blueman.PortableNormal
import Blueman.MutatorOutputs
import Blueman.AflOutputs
import Blueman.DriverBound
import Blueman.DriverLiveness
import Blueman.CollectedLength
import Blueman.Library.Novelty
import Blueman.CorpusCoverage
