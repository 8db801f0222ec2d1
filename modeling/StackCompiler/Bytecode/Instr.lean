/-!
Instructions of the stack machine. Every instruction takes a fixed number of values from the stack
and leaves a fixed number on it; operands are words of one or two bytes, or the label of a jump.
-/

namespace StackCompiler

/-- A place in the code, by the number under which it was created. -/
structure Label where
  id : Nat
  deriving DecidableEq, Inhabited, Repr

def Label.text (l : Label) : String :=
  s!"L{l.id}"

/-- When a jump is taken. The last two keep the tested value if they jump and drop it if not. -/
inductive JumpKind where
  | always | ifNil | ifNotNil | ifNilElsePop | ifNotNilElsePop
  deriving DecidableEq, Inhabited, Repr

inductive BinaryInstr where
  | plus | diff | mult | quo | rem
  | numEq | lss | leq | gtr | geq
  | stringEq | stringLess
  deriving DecidableEq, Inhabited, Repr

inductive UnaryInstr where
  | negate | not
  deriving DecidableEq, Inhabited, Repr

inductive Opcode where
  | constRef | varRef | varSet | stackRef | stackSet
  | call | discard | ret
  | jump (kind : JumpKind)
  | arrayRef | arraySet
  | binary (instr : BinaryInstr)
  | unary (instr : UnaryInstr)
  | concat
  deriving DecidableEq, Inhabited, Repr

namespace Opcode

def mnemonic : Opcode → String
  | constRef => "constant"
  | varRef => "varref"
  | varSet => "varset"
  | stackRef => "stack-ref"
  | stackSet => "stack-set"
  | call => "call"
  | discard => "discardN"
  | ret => "return"
  | jump .always => "goto"
  | jump .ifNil => "goto-if-nil"
  | jump .ifNotNil => "goto-if-not-nil"
  | jump .ifNilElsePop => "goto-if-nil-else-pop"
  | jump .ifNotNilElsePop => "goto-if-not-nil-else-pop"
  | arrayRef => "aref"
  | arraySet => "aset"
  | binary .plus => "plus"
  | binary .diff => "diff"
  | binary .mult => "mult"
  | binary .quo => "quo"
  | binary .rem => "rem"
  | binary .numEq => "eqlsign"
  | binary .lss => "lss"
  | binary .leq => "leq"
  | binary .gtr => "gtr"
  | binary .geq => "geq"
  | binary .stringEq => "string="
  | binary .stringLess => "string<"
  | unary .negate => "negate"
  | unary .not => "not"
  | concat => "concatN"

def all : List Opcode :=
  [constRef, varRef, varSet, stackRef, stackSet, call, discard, ret] ++
    [.always, .ifNil, .ifNotNil, .ifNilElsePop, .ifNotNilElsePop].map jump ++
    [arrayRef, arraySet] ++
    [.plus, .diff, .mult, .quo, .rem, .numEq, .lss, .leq, .gtr, .geq, .stringEq,
      .stringLess].map binary ++
    [.negate, .not].map unary ++ [concat]

def ofMnemonic? (name : String) : Option Opcode :=
  all.find? (·.mnemonic == name)

end Opcode

/-- An instruction with its operand: an index into the constants, an offset from the top of the
stack, a number of values, or a label. -/
inductive Instr where
  | constRef (index : UInt16)
  | varRef (index : UInt16)
  | varSet (index : UInt16)
  | stackRef (offset : UInt16)
  | stackSet (offset : UInt16)
  | call (args : UInt8)
  | discard (count : UInt16)
  | ret
  | jump (kind : JumpKind) (target : Label)
  | arrayRef
  | arraySet
  | binary (instr : BinaryInstr)
  | unary (instr : UnaryInstr)
  | concat (count : UInt8)
  deriving DecidableEq, Inhabited, Repr

namespace Instr

def opcode : Instr → Opcode
  | constRef _ => .constRef
  | varRef _ => .varRef
  | varSet _ => .varSet
  | stackRef _ => .stackRef
  | stackSet _ => .stackSet
  | call _ => .call
  | discard _ => .discard
  | ret => .ret
  | jump kind _ => .jump kind
  | arrayRef => .arrayRef
  | arraySet => .arraySet
  | binary i => .binary i
  | unary i => .unary i
  | concat _ => .concat

def pops : Instr → Nat
  | constRef _ | varRef _ | stackRef _ => 0
  | varSet _ | stackSet _ | ret => 1
  | call args => args.toNat + 1
  | discard count => count.toNat
  | jump .always _ => 0
  | jump _ _ => 1
  | arrayRef => 2
  | arraySet => 3
  | binary _ => 2
  | unary _ => 1
  | concat count => count.toNat

def pushes : Instr → Nat
  | constRef _ | varRef _ | stackRef _ | call _ | arrayRef | binary _ | unary _ | concat _ => 1
  | varSet _ | stackSet _ | ret | discard _ | jump _ _ | arraySet => 0

def label? : Instr → Option Label
  | jump _ target => some target
  | _ => none

def operandText? : Instr → Option String
  | constRef n | varRef n | varSet n | stackRef n | stackSet n | discard n =>
    some (toString n.toNat)
  | call n | concat n => some (toString n.toNat)
  | jump _ target => some target.text
  | ret | arrayRef | arraySet | binary _ | unary _ => none

def text (i : Instr) : String :=
  match i.operandText? with
  | some operand => i.opcode.mnemonic ++ " " ++ operand
  | none => i.opcode.mnemonic

/-- The instruction of an opcode and an operand, which is ignored where there is none. -/
def ofOpcode (op : Opcode) (operand : Nat) : Instr :=
  match op with
  | .constRef => constRef (.ofNat operand)
  | .varRef => varRef (.ofNat operand)
  | .varSet => varSet (.ofNat operand)
  | .stackRef => stackRef (.ofNat operand)
  | .stackSet => stackSet (.ofNat operand)
  | .call => call (.ofNat operand)
  | .discard => discard (.ofNat operand)
  | .ret => ret
  | .jump kind => jump kind ⟨operand⟩
  | .arrayRef => arrayRef
  | .arraySet => arraySet
  | .binary i => binary i
  | .unary i => unary i
  | .concat => concat (.ofNat operand)

end Instr

end StackCompiler
