import Gobee.CToken
import Gobee.CExpr
import Gobee.CParse
import Gobee.GoSyntax
import Gobee.Tables
import Gobee.FormatExpr
import Gobee.ExprTree
import Gobee.CallForm
import Gobee.Emit
import Gobee.StmtTree
import Gobee.Printed
import Gobee.PrintedBody
import Gobee.StmtOrder
import Gobee.EmitProgram
import Gobee.ActionLines
import Gobee.SourceMap
import Gobee.Functions
import Gobee.LeftOut
import Gobee.MapPositions
import Gobee.EmittedFile
import Gobee.MapCoverage
import Gobee.Validate
import Gobee.Supported
import Gobee.ClosedCalls
import Gobee.Support
import Gobee.PrintedTypes
import Gobee.DeclareOrder
import Gobee.Layout
import Gobee.EventLayout
import Gobee.Consts
import Gobee.MachineInt
import Gobee.CEval
import Gobee.Arith
import Gobee.ArithTree
import Gobee.ArithEval
import Gobee.FieldAccess
import Gobee.HelperNames
import Gobee.Parse
import Gobee.KeptFunctions
import Gobee.Course
import Gobee.Uses
import Gobee.Scopes
import Gobee.AliasTable
import Gobee.Resolution
import Gobee.MapText
import Gobee.CConst
import Gobee.Literals
import Gobee.CJoint
import Gobee.CLegible
import Gobee.Splices
import Gobee.CMemory
import Gobee.IncDec
import Gobee.CFold
import Gobee.ConstExprs
import Gobee.Conversions
import Gobee.CTyping
import Gobee.OutputSize
import Gobee.DistinctNames
import Gobee.Loops
import Gobee.Runs
import Gobee.CommaOk
import Gobee.Stores
import Gobee.OkStable
import Gobee.Regexp
import Gobee.Diagnose
import Gobee.StableSort
import Gobee.Diagnostics
import Gobee.AttachAll
import Gobee.BindingNames
import Gobee.CString
import Gobee.DepthSplit
import Gobee.Directives
import Gobee.MapSizes
import Gobee.HelperParams
import Gobee.PackageName
import Gobee.FieldTag
import Gobee.Renaming
import Gobee.ImportNames
import Gobee.ImportText
import Gobee.ImportEmit
import Gobee.ImportProgram
import Gobee.BindingsText
import Gobee.BindingsRender
import Gobee.CCells
import Gobee.Effects
import Gobee.Folders
import Gobee.Paths
import Gobee.Pipeline
import Gobee.PipelineDisk
import Gobee.PipelineRuns
import Gobee.PipelineRepairs
import Gobee.ScalarC
import Gobee.ScalarCalls
