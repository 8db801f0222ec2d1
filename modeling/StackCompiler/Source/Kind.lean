import StackCompiler.Family

/-!
Static kinds of source expressions.
-/

namespace StackCompiler.Source

/-- Kinds of values that are no arrays; they are also what arrays hold. -/
inductive Scalar where
  | bool | int | float | string | char | symbol | object
  deriving DecidableEq, Inhabited, Repr

/-- The operand family of a scalar; truth values, symbols and host objects have none. -/
def Scalar.family? : Scalar → Option Family
  | int | char => some .int
  | float => some .float
  | string => some .string
  | bool | symbol | object => none

/-- The static kind of an expression. A tuple is what a call with several results yields. -/
inductive Kind where
  | scalar (s : Scalar)
  | void
  | array (elem : Scalar) (length : Nat)
  | slice (elem : Scalar)
  | tuple (count : Nat)
  deriving DecidableEq, Inhabited, Repr

namespace Kind

abbrev bool : Kind := .scalar .bool
abbrev int : Kind := .scalar .int
abbrev float : Kind := .scalar .float
abbrev string : Kind := .scalar .string
abbrev char : Kind := .scalar .char

def family? : Kind → Option Family
  | scalar s => s.family?
  | _ => none

/-- Whether values of this kind are copied when they are stored. -/
def isArray : Kind → Bool
  | array _ _ => true
  | _ => false

def isTuple : Kind → Bool
  | tuple _ => true
  | _ => false

end Kind

end StackCompiler.Source
