import StackCompiler.Signature

/-!
What packages are compiled against. A context is open for registration until it is sealed, and only
a sealed one serves for compilation.
-/

namespace StackCompiler

/-- Declared functions and host bindings, with a mark once nothing more may be added. -/
structure Context where
  environment : Environment := {}
  isSealed : Bool := false
  deriving Inhabited

inductive ContextError where
  | alreadySealed
  | notSealed
  | registration (cause : RegistrationError)
  deriving DecidableEq

def ContextError.message : ContextError → String
  | alreadySealed => "context is already sealed - cannot register after seal()"
  | notSealed => "context is not sealed - call seal() before create_unit()"
  | registration cause => cause.message

namespace Context

def empty : Context := {}

def declare (c : Context) (name : String) (flags : Flags) : Except ContextError Context :=
  if c.isSealed then .error .alreadySealed
  else
    match c.environment.functions.declare name flags with
    | .ok functions => .ok { c with environment := { c.environment with functions } }
    | .error e => .error (.registration e)

def register (c : Context) (ident host : String) : Except ContextError Context :=
  if c.isSealed then .error .alreadySealed
  else
    match c.environment.bindings.register ident host with
    | .ok bindings => .ok { c with environment := { c.environment with bindings } }
    | .error e => .error (.registration e)

def close (c : Context) : Context :=
  { c with isSealed := true }

/-- The host functions that compiled code relies on: one that never returns, and those that make a
value of a certain kind. -/
def runtimeFunctions : List (String × Flags) :=
  (Host.raise, { never := true }) ::
    [Host.coerceBool, Host.coerceInt, Host.coerceFloat, Host.coerceString, Host.coerceSymbol,
      Host.intern].map (·, {})

def declareAll (c : Context) : List (String × Flags) → Except ContextError Context
  | [] => .ok c
  | (name, flags) :: rest => do
    let c ← c.declare name flags
    c.declareAll rest

def withRuntime : Except ContextError Context :=
  empty.declareAll runtimeFunctions

end Context

end StackCompiler
