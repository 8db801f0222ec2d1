import StackCompiler.Binary64
import StackCompiler.Signature
import StackCompiler.Form.Operator

/-!
Forms, the Lisp-like trees between source and bytecode. Statements and expressions share one type:
where a form stands decides whether its value is used. A list of forms is a block when it owns the
variables bound at its own level.
-/

namespace StackCompiler

/-- A form. A sparse array is made by its constructor, and then its elements are stored one by one.
A loop tests its condition before each round and runs `post` after it. -/
inductive Form where
  | bool (value : Bool)
  | char (value : Char)
  | int (value : Int64)
  | float (value : Binary64)
  | str (value : String)
  | symbol (name : String)
  | var (name : String)
  | array (elems : List Form)
  | sparseArray (ctor : Form) (stores : List (Int64 × Form))
  | block (body : List Form)
  | branch (cond : Form) (body : List Form) (els : Option Form)
  | loop (cond : Form) (body : List Form) (post : Option Form)
  | ret (results : List Form)
  | breakLoop
  | continueLoop
  | bind (name : String) (init : Form)
  | rebind (name : String) (value : Form)
  | op (kind : OpKind) (family : Family) (args : List Form)
  | unary (kind : UnaryKind) (family : Family) (arg : Form)
  | not (arg : Form)
  | and (left right : Form)
  | or (left right : Form)
  | call (name : String) (args : List Form)
  | dynCall (callee : Form) (args : List Form)
  | resultRef (index : Nat)
  | copy (source : Form)
  | get (source index : Form)
  | set (target index value : Form)
  deriving Inhabited

/-- Forms run one after the other; the variables bound at this level end with the block. -/
abbrev Block := List Form

namespace Form

def isAtom : Form → Bool
  | bool _ | char _ | int _ | float _ | str _ | symbol _ => true
  | _ => false

def atomFamily? : Form → Option Family
  | int _ | char _ => some .int
  | float _ => some .float
  | str _ => some .string
  | _ => none

/-- Whether evaluating the form has no effect, by its shape alone. -/
def isPure : Form → Bool
  | var _ | resultRef _ => true
  | f => f.isAtom

def isBind : Form → Bool
  | bind _ _ => true
  | _ => false

def isReturn : Form → Bool
  | ret _ => true
  | _ => false

/-- Whether the form never has a value. -/
def isStatement : Form → Bool
  | block _ | branch _ _ _ | loop _ _ _ | ret _ | breakLoop | continueLoop | bind _ _ | rebind _ _
  | set _ _ _ => true
  | _ => false

def callConvention? (functions : SignatureTable) : Form → Option Convention
  | call name _ => some (functions.convention name)
  | _ => none

end Form

/-- How many variables a block binds at its own level. -/
def Block.locals (b : Block) : Nat :=
  b.countP Form.isBind

end StackCompiler
