import SolInfer.Efficiency.StepCache
import SolInfer.Disagg.Boundary.Proofs
import SolInfer.Efficiency.TeaCache
import SolInfer.Efficiency.TokenPrune.Proofs
import SolInfer.Cache.Ltx2Requests
import SolInfer.Cache.Stage1Core.Proofs
import SolInfer.Cache.SanaEasyCache
import SolInfer.Dits.Ltx2PrefixShare.Proofs
import SolInfer.Distributed.CfgParallel
import SolInfer.Offload.Layerwise.Proofs
import SolInfer.Parser.Reasoning.Proofs
import SolInfer.Session.Streaming
import SolInfer.Gateway.Tree.Eviction
import SolInfer.Gateway.HashRing
import SolInfer.Gateway.TokenBucket
import SolInfer.Speculative.EagleTree.Verify
import SolInfer.Sampling.Penalty.Proofs
import SolInfer.Detokenizer.StopStrings
import SolInfer.Transport.Allocator.Counting
import SolInfer.Disagg.DispatchPolicy
import SolInfer.Transport.Codec
import SolInfer.Disagg.Broadcast
import SolInfer.Constrained.GrammarManager
import SolInfer.Lora.Registry.Proofs
import SolInfer.Dits.Ltx2CudaGraph
import SolInfer.Distributed.ParallelGroups
import SolInfer.Offload.Layerwise.Residency
import SolInfer.MemCache.AllocExtend
import SolInfer.Scheduler.Preemption
import SolInfer.Scheduler.Splitting
import SolInfer.Comparator.Zigzag
