import StackCompiler.Assembly.Basic

/-!
Code for forms whose value is used. It leaves one more value on the stack than it found.
-/

namespace StackCompiler

inductive OpPlan where
  /-- Operands are combined from the left, two at a time. -/
  | fold (i : BinaryInstr)
  /-- As `fold`, and the result is negated. -/
  | foldNot (i : BinaryInstr)
  /-- All operands are joined at once. -/
  | concat
  /-- A function of the host takes all operands. -/
  | host (name : String)
  deriving DecidableEq

/-- How an operator works on a family, unless it is not defined there. -/
def OpKind.plan? : OpKind → Family → Option OpPlan
  | add, .string => some .concat
  | add, _ => some (.fold .plus)
  | sub, .string => none
  | sub, _ => some (.fold .diff)
  | mul, .string => none
  | mul, _ => some (.fold .mult)
  | div, .string => none
  | div, _ => some (.fold .quo)
  | rem, .int => some (.fold .rem)
  | rem, _ => none
  | bitOr, .int => some (.host Host.bitOr)
  | bitOr, _ => none
  | bitAnd, .int => some (.host Host.bitAnd)
  | bitAnd, _ => none
  | bitXor, .int => some (.host Host.bitXor)
  | bitXor, _ => none
  | eq, .string => some (.fold .stringEq)
  | eq, _ => some (.fold .numEq)
  | notEq, .string => some (.foldNot .stringEq)
  | notEq, _ => some (.foldNot .numEq)
  | less, .string => some (.fold .stringLess)
  | less, _ => some (.fold .lss)
  | lessEq, .string => some (.host Host.stringLessEq)
  | lessEq, _ => some (.fold .leq)
  | greater, .string => some (.host Host.stringGreater)
  | greater, _ => some (.fold .gtr)
  | greaterEq, .string => some (.host Host.stringGreaterEq)
  | greaterEq, _ => some (.fold .geq)

/-- Whether the operand is a literal of another family, or of none. -/
def Form.clashesWith (f : Form) (family : Family) : Bool :=
  f.isAtom && f.atomFamily? != some family

/-- Checks the number of operands and the families of those that are literals. -/
def checkOperands (kind : OpKind) (family : Family) (args : List Form) : Emit Unit :=
  if kind.admits args.length then
    match args.find? (·.clashesWith family) with
    | some arg => Emit.fault (.operandFamily arg kind family)
    | none => pure ()
  else Emit.fault (.operandCount kind family args.length)

/-- Ends a call by name: the value of a void function is dropped, and a function that never returns
leaves none. -/
def endCall (functions : SignatureTable) (name : String) (args : Nat) : Emit Convention := do
  Emit.call args
  let convention := functions.convention name
  match convention with
  | .never => Emit.discardModel 1
  | .void => Emit.discard 1
  | .value => pure ()
  return convention

def emitResultRef (index : Nat) : Emit Unit :=
  if index = 0 then Emit.fault .primaryResultRef
  else
    match Host.resultVar? index with
    | some var => Emit.dynamicRef var
    | none => throw (.capacity .multiValueReference (index + 1))

mutual
/-- Emits a form for its value. -/
def emitValue (functions : SignatureTable) : Form → Emit Unit
  | .bool b => Emit.bool b
  | .char c => Emit.int (.ofNat c.toNat)
  | .int v => Emit.int v
  | .float x => Emit.float x
  | .str s => Emit.str s
  | .symbol name => Emit.symbol name
  | .var name => Emit.varRef name
  | .array elems => do
    Emit.symbol Host.vector
    emitValues functions elems
    Emit.call elems.length
  | .sparseArray ctor stores => do
    emitValue functions ctor
    emitStores functions stores
  | .copy source => do
    Emit.symbol Host.copySequence
    emitValue functions source
    Emit.call 1
  | .get source index => do
    emitValue functions source
    emitValue functions index
    Emit.instr .arrayRef
  | .op kind family args => do
    checkOperands kind family args
    match kind.plan? family with
    | none => Emit.fault (.undefinedOperator kind family)
    | some .concat =>
      emitValues functions args
      Emit.concat args.length
    | some (.host name) =>
      Emit.symbol name
      emitValues functions args
      Emit.call args.length
    | some (.fold i) => emitFold functions i args
    | some (.foldNot i) =>
      emitFold functions i args
      Emit.instr (.unary .not)
  | .unary kind family arg =>
    match kind, family with
    | .neg, .int | .neg, .float => do
      emitValue functions arg
      Emit.instr (.unary .negate)
    | .bitNot, .int => do
      Emit.symbol Host.bitNot
      emitValue functions arg
      Emit.call 1
    | kind, family => Emit.fault (.undefinedUnary kind family)
  | .not arg => do
    emitValue functions arg
    Emit.instr (.unary .not)
  | .and left right => do
    let done ← Emit.newLabel "and-end"
    emitValue functions left
    Emit.jump .ifNilElsePop done
    emitValue functions right
    Emit.bindLabel done
    Emit.unbindTop
  | .or left right => do
    let done ← Emit.newLabel "or-end"
    emitValue functions left
    Emit.jump .ifNotNilElsePop done
    emitValue functions right
    Emit.bindLabel done
    Emit.unbindTop
  | .call name args => do
    Emit.symbol name
    emitValues functions args
    let convention ← endCall functions name args.length
    if convention = .value then pure () else Emit.fault (.noValue name)
  | .dynCall callee args => do
    Emit.symbol Host.funcall
    emitValue functions callee
    emitValues functions args
    Emit.call (args.length + 1)
  | .resultRef index => emitResultRef index
  | .block body => Emit.fault (.statementAsValue (.block body))
  | .branch cond body els => Emit.fault (.statementAsValue (.branch cond body els))
  | .loop cond body post => Emit.fault (.statementAsValue (.loop cond body post))
  | .ret results => Emit.fault (.statementAsValue (.ret results))
  | .breakLoop => Emit.fault (.statementAsValue .breakLoop)
  | .continueLoop => Emit.fault (.statementAsValue .continueLoop)
  | .bind name init => Emit.fault (.statementAsValue (.bind name init))
  | .rebind name value => Emit.fault (.statementAsValue (.rebind name value))
  | .set target index value => Emit.fault (.statementAsValue (.set target index value))

def emitValues (functions : SignatureTable) : List Form → Emit Unit
  | [] => pure ()
  | f :: fs => do
    emitValue functions f
    emitValues functions fs

/-- Combines operands from the left. -/
def emitFold (functions : SignatureTable) (i : BinaryInstr) : List Form → Emit Unit
  | [] => pure ()
  | f :: fs => do
    emitValue functions f
    emitFoldRest functions i fs

def emitFoldRest (functions : SignatureTable) (i : BinaryInstr) : List Form → Emit Unit
  | [] => pure ()
  | f :: fs => do
    emitValue functions f
    Emit.instr (.binary i)
    emitFoldRest functions i fs

/-- Stores elements into the topmost array, which stays where it is. -/
def emitStores (functions : SignatureTable) : List (Int64 × Form) → Emit Unit
  | [] => pure ()
  | (index, value) :: rest => do
    Emit.instr (.stackRef 0)
    Emit.int index
    emitValue functions value
    Emit.instr .arraySet
    emitStores functions rest
end

/-- Emits a call by name and tells how it ends. -/
def emitCall (functions : SignatureTable) (name : String) (args : List Form) :
    Emit Convention := do
  Emit.symbol name
  emitValues functions args
  endCall functions name args.length

end StackCompiler
