import ContentionProf.FastRandStreams
import ContentionProf.Hashes
import ContentionProf.Pacing
import ContentionProf.HookRange
import ContentionProf.HookSession
import ContentionProf.HookTransparent
import ContentionProf.AgentExitApart
import ContentionProf.Collector
import ContentionProf.CollectorCounts
import ContentionProf.CollectorDrain
import ContentionProf.CollectorOrder
import ContentionProf.Combiner
import ContentionProf.CombinerExit
import ContentionProf.CombinerSections
import ContentionProf.CombinerReads
import ContentionProf.SessionsCompletion
import ContentionProf.ShutdownCompletion
import ContentionProf.Controller
import ContentionProf.HookFailure
import ContentionProf.Pipeline
import ContentionProf.PipelineSessions
import ContentionProf.Pool
import ContentionProf.PoolBlocks
import ContentionProf.PoolBlocksCompletion
import ContentionProf.PoolBlocksReads
import ContentionProf.PoolPlaces
import ContentionProf.PoolReentry
import ContentionProf.PoolSlots
import ContentionProf.Profiler
import ContentionProf.ProfilerTotals
import ContentionProf.Shutdown
import ContentionProf.SpeedLimitClock
import ContentionProf.SpeedLimitRuns
import ContentionProf.LinkedList
import ContentionProf.PoolCalls
import ContentionProf.Samples
import ContentionProf.SamplesCalls
import ContentionProf.SamplesOwner
import ContentionProf.SamplesReturned
import ContentionProf.SeriesTotals
import ContentionProf.Blocks
import ContentionProf.BoundedQueue
import ContentionProf.BoundedQueueRuns
import ContentionProf.LinkedHeap
import ContentionProf.Numerals
import ContentionProf.ProfilerText
import ContentionProf.Reducer
import ContentionProf.ReducerSampler
import ContentionProf.ReducerSamplerInverse
import ContentionProf.RingLists
import ContentionProf.SamplerOwners
import ContentionProf.SamplerPlaces
import ContentionProf.SamplerCompletion
import ContentionProf.SamplerRounds
import ContentionProf.Selection
import ContentionProf.SelectionMean
import ContentionProf.Series
import ContentionProf.ThreadExit
import ContentionProf.ThreadExitRuns
import ContentionProf.BoundedQueueSlots
import ContentionProf.FastRand
import ContentionProf.FastRandRange
import ContentionProf.FastRandSeeding
