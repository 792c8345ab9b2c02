import CudaForge.Memory.AllocatorAccounting
import CudaForge.Library.CommonSubsequence
import CudaForge.Library.CountedLoop
import CudaForge.Memory.PoolAccounting
import CudaForge.Memory.VramLimit
import CudaForge.Memory.PrefixCoherence
import CudaForge.Memory.AppendFrame
import CudaForge.Memory.HashSharing
import CudaForge.Memory.StreamOrder
import CudaForge.Memory.SpuriousOom
import CudaForge.Memory.CategoryAccounting
import CudaForge.Memory.ScopedBuffer
import CudaForge.Memory.BatchStaging
import CudaForge.Memory.FailedCalls
import CudaForge.Memory.PoolAdmission
import CudaForge.Memory.StagingLayout
import CudaForge.Scheduler.BatcherBudget
import CudaForge.Engine.StreamInvariant
import CudaForge.Engine.LockstepStep
import CudaForge.Engine.ConcurrentCancel
import CudaForge.Engine.OutOfPages
import CudaForge.Engine.PagedRefinement
import CudaForge.Engine.Draining
import CudaForge.Engine.PagedDraining
import CudaForge.Engine.ServedStreams
import CudaForge.Engine.BlockingStream
import CudaForge.Engine.AsyncDelivery
import CudaForge.Engine.LoopLifecycle
import CudaForge.Engine.BatchSpeculationLaw
import CudaForge.Scheduler.Progress
import CudaForge.Scheduler.AdmissionOrder
import CudaForge.Scheduler.SpeculativeLaw
import CudaForge.Scheduler.SpeculativeRounds
import CudaForge.Kernels.TritonSoftmax
import CudaForge.Kernels.MaskedColumns
import CudaForge.Autotuner.Transparency
import CudaForge.Engine.AbandonedStreams
import CudaForge.Serving.Permits
import CudaForge.Serving.Backpressure
import CudaForge.Serving.WireFormat
import CudaForge.Tracking.LoadedManifests
import CudaForge.Tracking.RunRecords
import CudaForge.Engine.AcceptanceRates
import CudaForge.Engine.NucleusSampling
import CudaForge.Engine.RequestAdmission
import CudaForge.Kernels.OutputCover
import CudaForge.Kernels.TileLoads
import CudaForge.Scheduler.DeterministicModels
import CudaForge.Scheduler.GreedySpeculation
import CudaForge.Scheduler.PossibleTokens
import CudaForge.Kernels.Int4Agreement
import CudaForge.Kernels.RMSNormReduction
import CudaForge.Quantization.KernelLayout
import CudaForge.Quantization.HistogramMerge
import CudaForge.Library.StridedLoop
import CudaForge.Library.SharedMemory
import CudaForge.Library.Dominance
import CudaForge.Library.WhileLoop
import CudaForge.Evaluation.Correctness
import CudaForge.Evaluation.LatencyProfile
import CudaForge.Evaluation.RougeLcs
import CudaForge.Statistics.ParetoFrontier
import CudaForge.Memory.BucketSizes
import CudaForge.Memory.AllocationSizes
import CudaForge.Memory.AppendOverflow
import CudaForge.Memory.CacheLimit
import CudaForge.Autotuner.DispatchRuns
import CudaForge.Engine.SamplingTruncation
import CudaForge.Kernels.GreedyAgreement
import CudaForge.Kernels.RopeAgreement
import CudaForge.Memory.PoolAddresses
import CudaForge.Workloads.DatasetLoader
import CudaForge.Memory.PoolBudget
import CudaForge.Autotuner.ConcurrentDispatch
import CudaForge.Quantization.CalibrationScan
import CudaForge.Statistics.LatencyDistribution
