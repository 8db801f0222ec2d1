import StackCompiler.Form.Equality
import StackCompiler.Package.Unit
import StackCompiler.Proofs.Correctness
import StackCompiler.Proofs.Declarations
import StackCompiler.Proofs.Evaluation
import StackCompiler.Proofs.ExprMeaning
import StackCompiler.Proofs.Faults
import StackCompiler.Proofs.FormCode
import StackCompiler.Proofs.FormShape
import StackCompiler.Proofs.Growth
import StackCompiler.Proofs.LabelUse
import StackCompiler.Proofs.Machine
import StackCompiler.Proofs.MultiReturn
import StackCompiler.Proofs.Operands
import StackCompiler.Proofs.Scoping
import StackCompiler.Proofs.SourceMeaning
import StackCompiler.Proofs.SourceTyping
import StackCompiler.Proofs.StackTyping
import StackCompiler.Proofs.StaticStack
import StackCompiler.Proofs.StmtMeaning
import StackCompiler.Proofs.ValueCode
import StackCompiler.Proofs.Visibility
import StackCompiler.Source.Build
import StackCompiler.Proofs.PackageRun
import StackCompiler.Proofs.Ownership
import StackCompiler.Proofs.Vectors
import StackCompiler.Proofs.ValueSemantics
import StackCompiler.Proofs.EmissionHistory
import StackCompiler.Proofs.PackageOrder
import StackCompiler.Proofs.Assignment
import StackCompiler.Proofs.DynamicReads
import StackCompiler.Proofs.ElementUpdate
import StackCompiler.Proofs.ParallelAssignment
import StackCompiler.Proofs.StateEffect
import StackCompiler.Proofs.PoolHistory
import StackCompiler.Proofs.PoolUse
import StackCompiler.Proofs.ArrayLiterals
import StackCompiler.Proofs.Chains
import StackCompiler.Proofs.ConstantFamilies
import StackCompiler.Proofs.EqualityMeaning
import StackCompiler.Proofs.Lockstep
import StackCompiler.Proofs.StringChains
import StackCompiler.Proofs.Parentheses
import StackCompiler.Proofs.CallOrder
import StackCompiler.Proofs.ConverterState
import StackCompiler.Proofs.NameIndependence
import StackCompiler.Proofs.Listing
import StackCompiler.Proofs.SpanCover
import StackCompiler.Proofs.DenseArrays
