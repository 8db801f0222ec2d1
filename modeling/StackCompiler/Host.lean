/-!
Names that the machine's Lisp environment reserves for compiled code: constants, helper functions
and the variables through which results after the first are passed.
-/

namespace StackCompiler.Host

/-- Falsehood and the absence of a value. -/
def nil : String := "nil"

def truth : String := "t"

/-- The symbol that stands for the empty name. -/
def emptySymbol : String := "##"

/-- Variables that hold the second and further results of the last call. -/
def resultVars : List String :=
  ["Go--ret-2", "Go--ret-3", "Go--ret-4", "Go--ret-5", "Go--ret-6", "Go--ret-7", "Go--ret-8"]

def maxResults : Nat := resultVars.length + 1

/-- The variable of the result at `index`, counted from zero. The first result is the value of the
call itself and has none. -/
def resultVar? : Nat → Option String
  | 0 => none
  | k + 1 => resultVars[k]?

def coerceBool : String := "Go--coerce-bool"
def coerceInt : String := "Go--coerce-int"
def coerceFloat : String := "Go--coerce-float"
def coerceString : String := "Go--coerce-string"
def coerceSymbol : String := "Go--coerce-symbol"

/-- Raises an error and never returns. -/
def raise : String := "Go--panic"

def stringLessEq : String := "Go--string<="
def stringGreaterEq : String := "Go--string>="
def stringGreater : String := "string>"

def intern : String := "intern"

def funcall : String := "funcall"

def copySequence : String := "copy-sequence"

def makeVector : String := "make-vector"

def vector : String := "vector"

def length : String := "length"

def eq : String := "eq"

def bitOr : String := "logior"
def bitAnd : String := "logand"
def bitXor : String := "logxor"
def bitNot : String := "lognot"

end StackCompiler.Host
