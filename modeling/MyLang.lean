import MyLang.Lib.ByteMemory
import MyLang.Lib.Rv32
import MyLang.HashMap
import MyLang.Ast
import MyLang.Parse
import MyLang.Sema
import MyLang.Asm
import MyLang.Compiler
import MyLang.Lex
import MyLang.Lib.LongestMatch
import MyLang.Lexing
import MyLang.Lib.PushDown
import MyLang.Grammar
import MyLang.Lib.CInt
import MyLang.Source
import MyLang.Scoping
import MyLang.Typing
import MyLang.Lib.StateExcept
import MyLang.Lib.Approx
import MyLang.Turns
import MyLang.Proofs.Ast
import MyLang.Proofs.Gen
import MyLang.Proofs.OpCode
import MyLang.Proofs.ExprCode
import MyLang.Proofs.Registers
import MyLang.Proofs.OpRun
import MyLang.Proofs.ExprRun
import MyLang.Proofs.CallRun
import MyLang.Proofs.CallFrame
import MyLang.Proofs.CallPreserves
import MyLang.Proofs.StmtGen
import MyLang.Proofs.ExprSound
import MyLang.Proofs.StmtRun
import MyLang.Proofs.SemaShape
import MyLang.Proofs.FuncRun
import MyLang.Proofs.SemaStep
import MyLang.Proofs.SemaLayout
import MyLang.Proofs.ParseStep
import MyLang.Proofs.ParseShape
import MyLang.Proofs.SemaScope
import MyLang.Proofs.Resolve
import MyLang.Proofs.Visible
import MyLang.Proofs.Agree
import MyLang.Proofs.Relabel
import MyLang.Proofs.Rename
import MyLang.Lib.FreshNames
import MyLang.Proofs.LabelNames
import MyLang.Proofs.Calls
import MyLang.Proofs.Labels
import MyLang.Proofs.FrameLayout
import MyLang.Proofs.PureExpr
import MyLang.Proofs.ShortCircuit
import MyLang.Proofs.Locations
import MyLang.Lib.Activation
import MyLang.Proofs.IfElse
import MyLang.Proofs.TypeCover
import MyLang.Proofs.LexTurn
import MyLang.Proofs.LexEnds
import MyLang.Proofs.Munch
import MyLang.Proofs.Lexes
import MyLang.Proofs.ParseReads
import MyLang.Proofs.StmtReads
import MyLang.Proofs.ParseEnds
import MyLang.Lib.CallSteps
import MyLang.Proofs.CallArgs
import MyLang.Proofs.CallReach
import MyLang.Proofs.CallExpr
import MyLang.Proofs.CallStmt
import MyLang.Proofs.CallProg
import MyLang.Main
import MyLang.Proofs.Main
import MyLang.Proofs.CallArrive
import MyLang.Lib.EndsAs
import MyLang.Linking
import MyLang.Faults
import MyLang.Proofs.Pressure
import MyLang.Proofs.Links
import MyLang.Proofs.Returns
import MyLang.Proofs.Operands
import MyLang.Proofs.Literals
import MyLang.Proofs.ParamSlots
import MyLang.Proofs.LastChar
import MyLang.Proofs.Newline
import MyLang.Lib.Events
import MyLang.Kinds
import MyLang.Proofs.Kinds
import MyLang.Declaring
import MyLang.Proofs.Redeclare
import MyLang.Proofs.Generable
import MyLang.Immediates
import MyLang.Proofs.Encodable
import MyLang.Lib.CallStack
import MyLang.Exits
import MyLang.Proofs.ReturnFrames
import MyLang.Proofs.FrameCode
import MyLang.Proofs.Exits
import MyLang.Lib.LinkedHeap
import MyLang.HashTable
import MyLang.Proofs.HashTable
import MyLang.Scopes
import MyLang.Proofs.Scopes
import MyLang.Visits
import MyLang.Proofs.Visits
import MyLang.Unused
import MyLang.Proofs.Unused
import MyLang.Positions
import MyLang.Proofs.Positions
import MyLang.Vectors
import MyLang.Proofs.Vectors
import MyLang.Lib.ReadBack
import MyLang.Render
import MyLang.Writing
import MyLang.Proofs.ExprRender
import MyLang.Proofs.StmtRender
import MyLang.Proofs.FrontEnd
import MyLang.SourceCalls
import MyLang.Callable
import MyLang.Arena
import MyLang.Lib.Stacked
import MyLang.Proofs.Arena
import MyLang.Proofs.ArenaClient
import MyLang.Unset
import MyLang.Proofs.Twins
import MyLang.Proofs.Alongside
import MyLang.Proofs.Unset
import MyLang.StackNeed
import MyLang.Proofs.StackNeed
import MyLang.Accepting
import MyLang.Proofs.Accepting
import MyLang.Lib.Fragments
import MyLang.VectorBytes
import MyLang.Proofs.VectorBytes
