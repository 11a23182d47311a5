import Caver.Basic
import Caver.Core.RedBlack
import Caver.Core.RedBlackRepair
import Caver.Core.Prog
import Caver.Core.Search
import Caver.Core.Bytes
import Caver.Core.Extents
import Caver.Core.Acyclic
import Caver.Core.Regexp
import Caver.Core.Wildcards
import Caver.Core.Placement
import Caver.Core.Linked
import Caver.Core.Interleaving
import Caver.Core.Outcome
import Caver.Core.Coupled
import Caver.Core.BinaryHeap
import Caver.Sanitizer.SizeClass
import Caver.Sanitizer.Primary
import Caver.Sanitizer.Region
import Caver.Sanitizer.Allocator
import Caver.Sanitizer.LFStack
import Caver.Sanitizer.LFStackRuns
import Caver.Sanitizer.LFStackHistories
import Caver.Sanitizer.LocalCache
import Caver.Sanitizer.FreeChunks
import Caver.Sanitizer.LocalCacheSteps
import Caver.Sanitizer.FreeListGrowth
import Caver.Sanitizer.LocalCacheSpecs
import Caver.Sanitizer.LocalCacheRuns
import Caver.Sanitizer.LocalCacheRefines
import Caver.Sanitizer.InternalSort
import Caver.Sanitizer.LargeMmap
import Caver.Sanitizer.LargeChunks
import Caver.Sanitizer.LargeMmapSteps
import Caver.Sanitizer.LargeMmapRefines
import Caver.Sanitizer.RecordMapping
import Caver.Sanitizer.Suppressions
import Caver.Sanitizer.TemplateSearch
import Caver.Sanitizer.TemplateMeaning
import Caver.Sanitizer.SuppressionParse
import Caver.Sanitizer.SuppressionLines
import Caver.Sanitizer.SuppressionFile
import Caver.Sanitizer.FlagParse
import Caver.Runtime.RbTree
import Caver.Runtime.RbTreeRep
import Caver.Runtime.RbTreeBalance
import Caver.Runtime.RbTreeNodes
import Caver.Runtime.RbTreeMap
import Caver.Runtime.RbTreeLookup
import Caver.Runtime.HeapAllocator
import Caver.Runtime.RuntimeFlags
import Caver.Runtime.HeapLedger
import Caver.Runtime.HeapTracking
import Caver.Runtime.StackRegistry
import Caver.Runtime.TypeTable
import Caver.Runtime.CastCache
import Caver.Runtime.HandleCast
import Caver.Runtime.CastTransparency
import Caver.Runtime.HeapCast
import Caver.Runtime.Variables
import Caver.Runtime.ObjectStore
import Caver.Runtime.RbTreeOwnership
import Caver.Runtime.RbTreeReinsert
import Caver.Runtime.CacheThreads
import Caver.Runtime.CacheRaces
import Caver.Runtime.BlockSizes
import Caver.Runtime.LiveBlocks
import Caver.Runtime.BlockMoves
import Caver.Runtime.Reallocation
import Caver.Runtime.AllocationSize
import Caver.Runtime.AllocationFailure
import Caver.Runtime.EarlyCalloc
import Caver.Runtime.Statistics
import Caver.Runtime.LiveObjects
import Caver.Runtime.CountedRuns
import Caver.CodeGen.THTables
import Caver.CodeGen.Containment
import Caver.CodeGen.NewExpr
import Caver.CodeGen.StackScopes
import Caver.CodeGen.TableImage
import Caver.CodeGen.Inheritance
import Caver.CodeGen.BaseOffsets
import Caver.CodeGen.FieldTypes
import Caver.CodeGen.RecordLayout
import Caver.CodeGen.LayoutWindows
import Caver.CodeGen.LaidOut
import Caver.CodeGen.SameLayout
import Caver.CodeGen.TableGeneration
import Caver.CodeGen.GeneratedTables
import Caver.CodeGen.SourceBlacklist
import Caver.CodeGen.CacheKeys
import Caver.CodeGen.AllocationSites
import Caver.CodeGen.ObjectVerdicts
import Caver.CodeGen.SuppressedCasts
import Caver.Passes.CallGraph
import Caver.Passes.PruneStack
import Caver.Passes.CastSearch
import Caver.Passes.CallRecords
import Caver.Passes.PruneRecords
import Caver.Passes.PrunedRuns
import Caver.Passes.BuiltCallGraph
import Caver.Passes.IR
import Caver.Passes.SecurityCast
import Caver.Passes.PointerFlow
import Caver.Passes.IRFunctions
import Caver.Passes.RemoveCheck
