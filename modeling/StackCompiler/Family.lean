/-!
Families of operands. The family of an operation decides which instruction or host function carries
it out.
-/

namespace StackCompiler

/-- What kind of values an operator works on. -/
inductive Family where
  | int
  | float
  | string
  deriving DecidableEq, Inhabited, Repr

def Family.text : Family → String
  | .int => "int"
  | .float => "float"
  | .string => "string"

end StackCompiler
