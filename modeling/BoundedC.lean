import BoundedC.Activation
import BoundedC.Arithmetic
import BoundedC.CType
import BoundedC.Call
import BoundedC.CommandLine
import BoundedC.Compile
import BoundedC.Declaration
import BoundedC.Evaluator
import BoundedC.Initializer
import BoundedC.Interpreter
import BoundedC.Literal
import BoundedC.Location
import BoundedC.Machine.Expand
import BoundedC.Machine.Finish
import BoundedC.Machine.Job
import BoundedC.Machine.Step
import BoundedC.Main
import BoundedC.Mismatch
import BoundedC.Operation
import BoundedC.Program
import BoundedC.ProgramState
import BoundedC.Proofs.Aborts
import BoundedC.Proofs.Accepted
import BoundedC.Proofs.Arguments
import BoundedC.Proofs.ArrayContents
import BoundedC.Proofs.ArrayParameters
import BoundedC.Proofs.CallDepth
import BoundedC.Proofs.CallEvents
import BoundedC.Proofs.Callers
import BoundedC.Proofs.Ceilings
import BoundedC.Proofs.Change
import BoundedC.Proofs.Composition
import BoundedC.Proofs.Concatenation
import BoundedC.Proofs.DeclaredTypes
import BoundedC.Proofs.Demand
import BoundedC.Proofs.Derived
import BoundedC.Proofs.Diagnostics
import BoundedC.Proofs.Embedding
import BoundedC.Proofs.Environments
import BoundedC.Proofs.Faultless
import BoundedC.Proofs.Frames
import BoundedC.Proofs.Grammar
import BoundedC.Proofs.Height
import BoundedC.Proofs.History
import BoundedC.Proofs.Increments
import BoundedC.Proofs.Indexing
import BoundedC.Proofs.InferredLength
import BoundedC.Proofs.Layout
import BoundedC.Proofs.Leads
import BoundedC.Proofs.LexerHistories
import BoundedC.Proofs.LiteralBuffers
import BoundedC.Proofs.LiteralPlaces
import BoundedC.Proofs.LiteralRuns
import BoundedC.Proofs.LiteralSites
import BoundedC.Proofs.Offsets
import BoundedC.Proofs.Ownership
import BoundedC.Proofs.PointerArithmetic
import BoundedC.Proofs.PristineLiterals
import BoundedC.Proofs.Purposes
import BoundedC.Proofs.Reading
import BoundedC.Proofs.Recognition
import BoundedC.Proofs.Refinement
import BoundedC.Proofs.Release
import BoundedC.Proofs.Reliable
import BoundedC.Proofs.RelocatedReading
import BoundedC.Proofs.RelocatedRuns
import BoundedC.Proofs.Sessions
import BoundedC.Proofs.SideBySide
import BoundedC.Proofs.Simulation
import BoundedC.Proofs.Spans
import BoundedC.Proofs.Spelling
import BoundedC.Proofs.StackDiscipline
import BoundedC.Proofs.StorableOperands
import BoundedC.Proofs.Subtraction
import BoundedC.Proofs.Subtrees
import BoundedC.Proofs.Targets
import BoundedC.Proofs.Termination
import BoundedC.Proofs.Turn
import BoundedC.Proofs.TypedStorage
import BoundedC.Proofs.WellFormed
import BoundedC.Proofs.WrittenTokens
import BoundedC.Reader.Basic
import BoundedC.Reader.Body
import BoundedC.Reader.Shape
import BoundedC.Reader.Term
import BoundedC.Run
import BoundedC.RuntimeError
import BoundedC.Session
import BoundedC.Sink
import BoundedC.Stack
import BoundedC.Storage.Arena
import BoundedC.Storage.Displacement
import BoundedC.Storage.Fault
import BoundedC.Storage.Pointer
import BoundedC.Storage.Value
import BoundedC.Text.Escaped
import BoundedC.Text.GraphemeExtend
import BoundedC.Text.Ranges
import BoundedC.Text.Unprintable
import BoundedC.Token
import BoundedC.Token.Lexer
