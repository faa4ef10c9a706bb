import Ume.Concurrency.EpochLag
import Ume.Concurrency.EpochLifetime
import Ume.Concurrency.EpochReclaim
import Ume.Concurrency.HazardClients
import Ume.Concurrency.HazardReentry
import Ume.Concurrency.HazardSafety
import Ume.Concurrency.InternerDictionary
import Ume.Concurrency.InternerViews
import Ume.Concurrency.MpscProgress
import Ume.Concurrency.MpscSequential
import Ume.Concurrency.NestedGuards
import Ume.Concurrency.QueueSize
import Ume.Concurrency.SpscLinear
import Ume.Config.Integers
import Ume.Config.Loadable
import Ume.Event.AnalyzerBalance
import Ume.Event.AnalyzerOrder
import Ume.Event.AppendRead
import Ume.Event.AppendReplay
import Ume.Event.AppendSequence
import Ume.Event.BadSegments
import Ume.Event.ConcurrentDispatch
import Ume.Event.CrashPoints
import Ume.Event.Crc32
import Ume.Event.DigitalTwin
import Ume.Event.DirectoryReplay
import Ume.Event.DispatchTrace
import Ume.Event.FailedRolls
import Ume.Event.FlippedBits
import Ume.Event.JournalEnd
import Ume.Event.LearningScores
import Ume.Event.MemoryAdvisor
import Ume.Event.MemoryScheduler
import Ume.Event.MigrationViews
import Ume.Event.OptimizerLedger
import Ume.Event.PathOrder
import Ume.Event.PatternFile
import Ume.Event.PredictionFreshness
import Ume.Event.PredictionScores
import Ume.Event.PrefetchBalance
import Ume.Event.PrefetchOrder
import Ume.Event.PrefetchStrides
import Ume.Event.Promotions
import Ume.Event.ReaderSafety
import Ume.Event.ReplayState
import Ume.Event.Sessions
import Ume.Event.Temperatures
import Ume.Event.TornAppend
import Ume.Event.WorkerLifecycle
import Ume.Platform.Clock
import Ume.Platform.MmapHandles
import Ume.Scripts.PerfGates
