import StackCompiler.Family

/-!
Operators of forms. An operator is applied to operands of one family; the four that repeat take any
number of operands from two on.
-/

namespace StackCompiler

inductive OpKind where
  | add | sub | mul | div | rem
  | bitOr | bitAnd | bitXor
  | eq | notEq | less | lessEq | greater | greaterEq
  deriving DecidableEq, Inhabited, Repr

namespace OpKind

def text : OpKind → String
  | add => "+" | sub => "-" | mul => "*" | div => "/" | rem => "%"
  | bitOr => "|" | bitAnd => "&" | bitXor => "^"
  | eq => "=" | notEq => "!=" | less => "<" | lessEq => "<=" | greater => ">" | greaterEq => ">="

/-- Whether chains of the operator are written as one operation on all operands. -/
def isVariadic : OpKind → Bool
  | add | sub | mul | div => true
  | _ => false

def isComparison : OpKind → Bool
  | eq | notEq | less | lessEq | greater | greaterEq => true
  | _ => false

def isBitwise : OpKind → Bool
  | bitOr | bitAnd | bitXor => true
  | _ => false

def admits (kind : OpKind) (operands : Nat) : Bool :=
  if kind.isVariadic || kind.isBitwise then 2 ≤ operands else operands == 2

end OpKind

inductive UnaryKind where
  | neg | bitNot
  deriving DecidableEq, Inhabited, Repr

def UnaryKind.text : UnaryKind → String
  | neg => "neg" | bitNot => "bitnot"

end StackCompiler
