/-!
Operators of the source language and how they are spelled.
-/

namespace StackCompiler.Source

inductive BinaryOp where
  | add | sub | mul | div | rem
  | bitAnd | bitOr | bitXor | andNot | shl | shr
  | eq | notEq | less | lessEq | greater | greaterEq
  | logicalAnd | logicalOr
  deriving DecidableEq, Inhabited, Repr

namespace BinaryOp

def text : BinaryOp → String
  | add => "+" | sub => "-" | mul => "*" | div => "/" | rem => "%"
  | bitAnd => "&" | bitOr => "|" | bitXor => "^" | andNot => "&^" | shl => "<<" | shr => ">>"
  | eq => "==" | notEq => "!=" | less => "<" | lessEq => "<=" | greater => ">" | greaterEq => ">="
  | logicalAnd => "&&" | logicalOr => "||"

/-- Whether the result is a truth value whatever the operands are. -/
def yieldsBool : BinaryOp → Bool
  | eq | notEq | less | lessEq | greater | greaterEq | logicalAnd | logicalOr => true
  | _ => false

end BinaryOp

inductive UnaryOp where
  | neg | plus | not | bitNot
  deriving DecidableEq, Inhabited, Repr

def UnaryOp.text : UnaryOp → String
  | neg => "-" | plus => "+" | not => "!" | bitNot => "^"

inductive AssignOp where
  | define | assign | add | sub | mul | div | rem
  deriving DecidableEq, Inhabited, Repr

namespace AssignOp

def text : AssignOp → String
  | define => ":=" | assign => "=" | add => "+=" | sub => "-=" | mul => "*=" | div => "/="
  | rem => "%="

/-- The operator that a compound assignment applies to its target. -/
def binary? : AssignOp → Option BinaryOp
  | define | assign => none
  | add => some .add
  | sub => some .sub
  | mul => some .mul
  | div => some .div
  | rem => some .rem

end AssignOp

inductive Step where
  | up | down
  deriving DecidableEq, Inhabited, Repr

def Step.text : Step → String
  | up => "++" | down => "--"

end StackCompiler.Source
