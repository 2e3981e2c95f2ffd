import LoomX.SubBatch
import LoomX.Xomp.AcceleratorDefault
import LoomX.CellMemory.AliasFlags
import LoomX.ParallelSort.Quicksort
import LoomX.AddressUsage.UsageMap
import LoomX.RegisterParts
import LoomX.RegisterState.Runs
import LoomX.IntervalSemantics.Carries
import LoomX.IntervalSemantics.Division
import LoomX.IntervalSemantics.BitOperators
import LoomX.AffineSubscript
import LoomX.ReductionStatement
import LoomX.KernelIndex
import LoomX.MapJoin
import LoomX.HoistOrder
import LoomX.PragmaRelevance
import LoomX.LinearizeExact
import LoomX.NestedEmission
import LoomX.DataMovement
import LoomX.InliningExact
import LoomX.Symbolic.LayoutExpressions
import LoomX.Graph.TypedFusionLegal
import LoomX.Graph.SCCExact
import LoomX.Symbolic.NameCounter
import LoomX.SRecord.DumpExact
import LoomX.PrivatisableScalars
import LoomX.FunctionPointer.DevirtualizedRuns
import LoomX.CollapseDepth
import LoomX.ReductionHelper.PreservedCalls
import LoomX.CheckedCounting
import LoomX.LoopFusion.MergeClauses
import LoomX.KernelClosed
import LoomX.ForExtent
import LoomX.LoopFusion.ContractedRuns
import LoomX.StringLiteral
import LoomX.DependenceLevels
import LoomX.LoopInsertion
import LoomX.LoopPermutation
import LoomX.Symbolic.StructuralOrder
import LoomX.Symbolic.MayEqual
import LoomX.Symbolic.Termination
import LoomX.EditDistance.DamerauLevenshtein
import LoomX.EditDistance.TreeEditDistance
import LoomX.StringUtility.ShellWords
import LoomX.StringUtility.JsonCsv
import LoomX.StringUtility.Base64
import LoomX.StringUtility.SplitJoin
import LoomX.Alignment
import LoomX.LowBits
import LoomX.UnionFind
import LoomX.Graph.DAG
import LoomX.Xomp.StaticSched
import LoomX.Xomp.BlockReduction
import LoomX.Xomp.SectionExact
import LoomX.BitVectorRepr
import LoomX.Xomp.DataReuse
import LoomX.ConstantFoldingExact
import LoomX.GcdTest
import LoomX.IntervalSemantics.Merge
import LoomX.WorkEstimates
import LoomX.CellMemory.MergeNoAliasing
import LoomX.AddressUsage.SetOperations
import LoomX.ThreadWorkers
import LoomX.Reachability
import LoomX.IntervalMap
