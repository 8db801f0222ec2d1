import StackCompiler.Bytecode.Instr
import StackCompiler.Form.Printer
import StackCompiler.Source.Expr

/-!
Why a function is not compiled. Causes are kept apart by constructors and worded in one place.
-/

namespace StackCompiler

open Source

/-- Statements that only make sense inside a loop. -/
inductive LoopJump where
  | breakLoop | continueLoop
  deriving DecidableEq, Inhabited, Repr

def LoopJump.text : LoopJump → String
  | breakLoop => "break"
  | continueLoop => "continue"

/-- Source that has no form. -/
inductive Unsupported where
  | blankValue
  | operator (op : BinaryOp)
  | operatorWithoutFamily (op : BinaryOp)
  | unaryOperand (op : UnaryOp)
  | constantOverflow
  | literalOfNonArray
  | literalIndex (index : Int64)
  | noValueKind
  | assignmentTarget
  | outsideLoop (jump : LoopJump)
  | localType
  | multiValueOp (op : AssignOp)
  | fromSingleValue (targets : Nat)
  | countMismatch (values targets : Nat)
  | callInIndexTarget
  | nonNumericStep (direction : Step)
  | returnOfTuple
  | branchInit
  | tupleArgument
  | builtinArity (name : String) (args : Nat)
  | intrinsicArity (name : String) (args : Nat)
  | coercionArguments (name : String)

def Unsupported.message : Unsupported → String
  | blankValue => "use of the blank identifier as a value"
  | operator op => "operator " ++ op.text
  | operatorWithoutFamily op =>
    "operator " ++ op.text ++ " on operands without a numeric or string type"
  | unaryOperand op => "unary " ++ op.text ++ " on this operand type"
  | constantOverflow => "integer constant overflow"
  | literalOfNonArray => "composite literal of a non-array type"
  | literalIndex index => "array literal index " ++ toString index.toInt ++ " out of range"
  | noValueKind => "variable without a value type"
  | assignmentTarget => "assignment target"
  | outsideLoop jump => jump.text ++ " outside of a loop"
  | localType => "local type declaration"
  | multiValueOp op => "multi-value " ++ op.text
  | fromSingleValue targets => s!"assignment of {targets} values from a single expression"
  | countMismatch values targets => s!"assignment of {values} values to {targets} targets"
  | callInIndexTarget => "call in an index target of a multi-value assignment"
  | nonNumericStep direction => direction.text ++ " of a non-numeric value"
  | returnOfTuple => "return of a multi-value call"
  | branchInit => "if statement with init clause"
  | tupleArgument => "multi-value call as an argument"
  | builtinArity name args => s!"{name} with {args} arguments"
  | intrinsicArity name args => s!"lisp.{name} with {args} arguments"
  | coercionArguments name => s!"{name} method with arguments"

/-- What the machine has only so much of. -/
inductive Resource where
  | constantPool | stackOffset | discardCount | callArguments | concatOperands
  | returnValues | multiValueReference
  deriving DecidableEq, Inhabited, Repr

namespace Resource

def text : Resource → String
  | constantPool => "constant pool"
  | stackOffset => "stack offset"
  | discardCount => "discard count"
  | callArguments => "call arguments"
  | concatOperands => "concat operands"
  | returnValues => "return values"
  | multiValueReference => "multi-value reference"

/-- The greatest number that the machine can express. -/
def limit : Resource → Nat
  | constantPool | stackOffset | discardCount => 65535
  | callArguments | concatOperands => 255
  | returnValues | multiValueReference => Host.maxResults

end Resource

/-- Forms or emitter steps that break a rule of the compiler itself. -/
inductive Fault where
  | underflow (count depth : Nat)
  | bindOnEmpty
  | unbindOnEmpty
  | unknownLabel (label : Label)
  | boundTwice (name : String) (label : Label) (previous position : Nat)
  | neverBound (name : String) (label : Label)
  | neverUsed (name : String) (label : Label)
  | exitOutsideLoop
  | jumpOutsideLoop (jump : LoopJump)
  | shallowerThanLoop
  | endedInLoop
  | noValue (name : String)
  | statementAsValue (form : Form)
  | primaryResultRef
  | operandCount (kind : OpKind) (family : Family) (operands : Nat)
  | operandFamily (operand : Form) (kind : OpKind) (family : Family)
  | undefinedOperator (kind : OpKind) (family : Family)
  | undefinedUnary (kind : UnaryKind) (family : Family)

namespace Fault

def message : Fault → String
  | underflow count depth => s!"stack underflow: popping {count} of {depth} slots"
  | bindOnEmpty => "binding a name on an empty stack"
  | unbindOnEmpty => "unbinding the top of an empty stack"
  | unknownLabel label => "unknown label " ++ label.text
  | boundTwice name label previous position =>
    s!"label '{name}' (" ++ label.text ++ s!") bound twice, at {previous} and {position}"
  | neverBound name label => s!"label '{name}' (" ++ label.text ++ ") was never bound"
  | neverUsed name label => s!"label '{name}' (" ++ label.text ++ ") was never used"
  | exitOutsideLoop => "exit_loop outside of a loop"
  | jumpOutsideLoop jump => jump.text ++ " outside of a loop"
  | shallowerThanLoop => "stack is shallower than at loop entry"
  | endedInLoop => "function ended inside a loop"
  | noValue name => s!"call to '{name}' produces no value but is used as one"
  | statementAsValue form => "statement " ++ form.text ++ " in expression position"
  | primaryResultRef => "multi-value reference to the primary result"
  | operandCount kind family operands =>
    family.text ++ kind.text ++ s!" applied to {operands} operands"
  | operandFamily operand kind family =>
    "operand family mismatch: " ++ operand.text ++ " in " ++ family.text ++ kind.text
  | undefinedOperator kind family =>
    "operator " ++ kind.text ++ " is not defined for " ++ family.text ++ " operands"
  | undefinedUnary kind family =>
    kind.text ++ " is not defined for " ++ family.text ++ " operands"

end Fault

inductive CompileError where
  | unsupported (what : Unsupported) (span : Span)
  | unresolved (name : String) (span : Span)
  | capacity (resource : Resource) (requested : Nat)
  | internal (fault : Fault)

namespace CompileError

def message : CompileError → String
  | unsupported what span => "at " ++ span.text ++ ": unsupported " ++ what.message
  | unresolved name span => "at " ++ span.text ++ s!": unresolved symbol '{name}'"
  | capacity resource requested =>
    resource.text ++ ": requested " ++ toString requested ++ ", limit is " ++
      toString resource.limit
  | internal fault => "internal compiler error: " ++ fault.message

/-- Where the cause stands in the source; forms have no place. -/
def span : CompileError → Span
  | unsupported _ span | unresolved _ span => span
  | capacity _ _ | internal _ => {}

def isInternal : CompileError → Bool
  | internal _ => true
  | _ => false

end CompileError

end StackCompiler
