import Aike.Lib.Reach
import Aike.Lib.Flow.Basic
import Aike.Lib.Flow.Frame
import Aike.Lib.Flow.Phi
import Aike.Lib.Flow.Closed
import Aike.Lib.Flow.Init
import Aike.Lib.Dependency
import Aike.Lib.Scope
import Aike.Lib.Brackets
import Aike.Lib.Lines
import Aike.Lib.Precedence
import Aike.Lib.Simulation
import Aike.Lib.Linked
import Aike.Lib.Calls
import Aike.Lib.Decimal
import Aike.Model.Type
import Aike.Model.Ast
import Aike.Model.Store
import Aike.Model.Members
import Aike.Model.Resolve
import Aike.Model.Typecheck
import Aike.Model.Compile
import Aike.Model.Mangle
import Aike.Model.Ir
import Aike.Model.Execute
import Aike.Model.Codegen.State
import Aike.Model.Codegen.Types
import Aike.Model.Codegen.Expr
import Aike.Model.Codegen.Function
import Aike.Model.Structured
import Aike.Model.Modules
import Aike.Model.Tokenize
import Aike.Model.Tree
import Aike.Model.Parse
import Aike.Model.FrontEnd
import Aike.Model.Load
import Aike.Lib.PrefixCode
import Aike.Lib.Llvm
import Aike.Lib.Memory
import Aike.Model.Prelude
import Aike.Model.Library
import Aike.Model.Scheduler
import Aike.Model.Backtrace
import Aike.Proofs.Parts
import Aike.Proofs.Unify.Walk
import Aike.Proofs.Unify.Acyclic
import Aike.Proofs.Unify.Solve
import Aike.Proofs.Unify.Answers
import Aike.Proofs.Solution
import Aike.Proofs.Overload
import Aike.Proofs.Compile
import Aike.Proofs.Codegen.Monad
import Aike.Proofs.Codegen.Builder
import Aike.Proofs.Codegen.Step
import Aike.Proofs.Codegen.Outline
import Aike.Proofs.Codegen.Lowers
import Aike.Proofs.Codegen.Run
import Aike.Proofs.Codegen.Phi
import Aike.Proofs.Codegen.Closed
import Aike.Proofs.Codegen.Segment
import Aike.Proofs.Codegen.Simulate
import Aike.Proofs.Codegen.Assembly
import Aike.Proofs.Codegen.Branch
import Aike.Proofs.Codegen.Meaning
import Aike.Proofs.Codegen.Init
import Aike.Proofs.Modules.Loop
import Aike.Proofs.Modules.Sort
import Aike.Proofs.Modules.Search
import Aike.Proofs.NameMap
import Aike.Proofs.Resolve
import Aike.Proofs.ResolveTypes
import Aike.Proofs.Tokenize
import Aike.Proofs.Tokenize.Scan
import Aike.Proofs.Tokenize.Brackets
import Aike.Proofs.Tokenize.Lines
import Aike.Proofs.Tokenize.Pieces
import Aike.Proofs.Tokenize.Newlines
import Aike.Proofs.Tokenize.Insert
import Aike.Proofs.Tokenize.OneLine
import Aike.Proofs.Tokenize.Spacing
import Aike.Proofs.Parse.Monad
import Aike.Proofs.Parse.Calls
import Aike.Proofs.Parse.Total
import Aike.Proofs.Parse.Terminates
import Aike.Proofs.Parse.Relocate
import Aike.Proofs.Parse.Uniform
import Aike.Proofs.Parse.Climb
import Aike.Proofs.FrontEnd
import Aike.Proofs.Parse.BlankLines
import Aike.Proofs.TypeText
import Aike.Proofs.Codegen.Layout
import Aike.Proofs.Codegen.Reuse
import Aike.Proofs.Instantiate
import Aike.Proofs.Members
import Aike.Proofs.FindMember
import Aike.Proofs.LiteralStruct
import Aike.Proofs.LiteralInteger
import Aike.Proofs.Scheduler
import Aike.Proofs.Backtrace
import Aike.Proofs.Prelude
import Aike.Proofs.Library
import Aike.Proofs.Mangle
import Aike.Proofs.Load
import Aike.Lib.Bytes
import Aike.Lib.Reciprocal
import Aike.Lib.Search
import Aike.Lib.FreeList
import Aike.Lib.ObjectStore
import Aike.Model.Gc.Region
import Aike.Model.Gc.Collector
import Aike.Model.Gc.Runtime
import Aike.Proofs.Gc.Index
import Aike.Proofs.Gc.Layout
import Aike.Proofs.Gc.Mark
import Aike.Proofs.Gc.Sweep
import Aike.Proofs.Gc.Alloc
import Aike.Proofs.Gc.Collect
import Aike.Proofs.Gc.Malloc
import Aike.Proofs.Gc.Run
import Aike.Proofs.Gc.Fill
import Aike.Proofs.Gc.Realloc
import Aike.Proofs.Gc.Runtime
