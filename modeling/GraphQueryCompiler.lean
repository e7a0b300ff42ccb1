import GraphQueryCompiler.ArgExtraction
import GraphQueryCompiler.ChunkRanges
import GraphQueryCompiler.CodegenFrame
import GraphQueryCompiler.CodegenInline
import GraphQueryCompiler.CollectCalls
import GraphQueryCompiler.CompileThread
import GraphQueryCompiler.ConsumerAgreement
import GraphQueryCompiler.ConsumerFunctions
import GraphQueryCompiler.CreateCalls
import GraphQueryCompiler.CreateCode
import GraphQueryCompiler.CreateRuns
import GraphQueryCompiler.CrossJoinRows
import GraphQueryCompiler.EmittedCode
import GraphQueryCompiler.EngineState
import GraphQueryCompiler.ExecSimulation
import GraphQueryCompiler.FepFormula
import GraphQueryCompiler.FepLookup
import GraphQueryCompiler.FepOperands
import GraphQueryCompiler.FepRuns
import GraphQueryCompiler.FepTruth
import GraphQueryCompiler.FepVisitor
import GraphQueryCompiler.FilterClosures
import GraphQueryCompiler.FilterExpression
import GraphQueryCompiler.FilterExpressionInline
import GraphQueryCompiler.FilterFormula
import GraphQueryCompiler.FilterSimulation
import GraphQueryCompiler.FilterStack
import GraphQueryCompiler.FinishCall
import GraphQueryCompiler.GraphDb
import GraphQueryCompiler.IndexScan
import GraphQueryCompiler.InterpretedJoins
import GraphQueryCompiler.InterpretedSteps
import GraphQueryCompiler.Interpreter
import GraphQueryCompiler.Ir
import GraphQueryCompiler.JoinIds
import GraphQueryCompiler.JoinReads
import GraphQueryCompiler.JoinSequence
import GraphQueryCompiler.JoinSimulation
import GraphQueryCompiler.KeyLookup
import GraphQueryCompiler.LeftOuterJoin
import GraphQueryCompiler.Lib.CallStack
import GraphQueryCompiler.Lib.CursorCell
import GraphQueryCompiler.Lib.CutLoop
import GraphQueryCompiler.Lib.DecimalText
import GraphQueryCompiler.Lib.DoublyLinked
import GraphQueryCompiler.Lib.ForwardSearch
import GraphQueryCompiler.Lib.Interleaving
import GraphQueryCompiler.Lib.LimitedStream
import GraphQueryCompiler.Lib.LinkedChain
import GraphQueryCompiler.Lib.MemoTable
import GraphQueryCompiler.Lib.NumberedName
import GraphQueryCompiler.Lib.OuterLoop
import GraphQueryCompiler.Lib.RowBuffers
import GraphQueryCompiler.Lib.SentinelLoop
import GraphQueryCompiler.Lib.SharedCursor
import GraphQueryCompiler.Lib.StepMachine
import GraphQueryCompiler.Lib.TracedRuns
import GraphQueryCompiler.LimitCalls
import GraphQueryCompiler.LimitPipelines
import GraphQueryCompiler.LimitTests
import GraphQueryCompiler.LimitedRows
import GraphQueryCompiler.ListReads
import GraphQueryCompiler.LookupOrder
import GraphQueryCompiler.MorselCalls
import GraphQueryCompiler.NestedLoop
import GraphQueryCompiler.NestedLoopJoin
import GraphQueryCompiler.OperatorSimulation
import GraphQueryCompiler.OperatorSlots
import GraphQueryCompiler.OwnLabels
import GraphQueryCompiler.ParallelJoin
import GraphQueryCompiler.PipelineRules
import GraphQueryCompiler.PipelineSemantics
import GraphQueryCompiler.PlanSimulation
import GraphQueryCompiler.PlanWalk
import GraphQueryCompiler.ProbeLoop
import GraphQueryCompiler.ProjectKeys
import GraphQueryCompiler.ProjectSimulation
import GraphQueryCompiler.ProjectedRows
import GraphQueryCompiler.Projection
import GraphQueryCompiler.ProjectionCache
import GraphQueryCompiler.QOperator
import GraphQueryCompiler.QrList
import GraphQueryCompiler.QrListAppend
import GraphQueryCompiler.QueryEngine
import GraphQueryCompiler.QueryEvents
import GraphQueryCompiler.QueryLoops
import GraphQueryCompiler.QueryResults
import GraphQueryCompiler.QueryRuns
import GraphQueryCompiler.RhsTypes
import GraphQueryCompiler.RshipLoops
import GraphQueryCompiler.RunHistory
import GraphQueryCompiler.Simulation
import GraphQueryCompiler.SlotHistory
import GraphQueryCompiler.SortComparators
import GraphQueryCompiler.StartFunction
import GraphQueryCompiler.SuffixRun
import GraphQueryCompiler.SymbolNames
import GraphQueryCompiler.TaskCallee
import GraphQueryCompiler.VariableRships
import GraphQueryCompiler.WhileRshipExist
