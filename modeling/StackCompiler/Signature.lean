import StackCompiler.Host
import StackCompiler.NameHash

/-!
What is known of functions before any body is compiled: how calls of a function end, and which host
function an intrinsic identifier is bound to. Signatures are kept under the hash of their name, host
bindings under the identifier itself.
-/

namespace StackCompiler

/-- How calls of a function end: with a value, without one, or not at all. -/
inductive Convention where
  | value
  | void
  | never
  deriving DecidableEq, Inhabited, Repr

structure Flags where
  void : Bool := false
  never : Bool := false
  deriving DecidableEq, Inhabited

/-- The convention that the marks ask for, unless they contradict each other. -/
def Flags.convention? : Flags → Option Convention
  | ⟨true, true⟩ => none
  | ⟨false, true⟩ => some .never
  | ⟨true, false⟩ => some .void
  | ⟨false, false⟩ => some .value

structure Signature where
  name : String
  convention : Convention
  deriving DecidableEq, Inhabited

inductive RegistrationError where
  | duplicateFunction (name : String)
  | duplicateBinding (ident : String)
  | conflictingFlags (name : String)
  deriving DecidableEq

def RegistrationError.message : RegistrationError → String
  | .duplicateFunction name => s!"function '{name}' is already declared"
  | .duplicateBinding ident => s!"FFI binding '{ident}' is already registered"
  | .conflictingFlags name => s!"function '{name}' cannot be both void and never-returning"

/-- Declared functions under the hashes of their names, the latest first. -/
structure SignatureTable where
  entries : List (NameHash × Signature) := []
  deriving Inhabited

namespace SignatureTable

def empty : SignatureTable := {}

def size (t : SignatureTable) : Nat :=
  t.entries.length

def get? (t : SignatureTable) (name : String) : Option Signature :=
  t.entries.lookup (NameHash.ofName name)

def contains (t : SignatureTable) (name : String) : Bool :=
  (t.get? name).isSome

/-- How calls of `name` end. A function that was not declared is reached by name only and yields a
value. -/
def convention (t : SignatureTable) (name : String) : Convention :=
  match t.get? name with
  | some signature => signature.convention
  | none => .value

/-- Declares a function. Contradictory marks are refused first, then a name that is taken. -/
def declare (t : SignatureTable) (name : String) (flags : Flags) :
    Except RegistrationError SignatureTable :=
  match flags.convention? with
  | none => .error (.conflictingFlags name)
  | some convention =>
    if t.contains name then .error (.duplicateFunction name)
    else .ok ⟨(NameHash.ofName name, ⟨name, convention⟩) :: t.entries⟩

/-- All signatures, by name in the order of code points. -/
def signatures (t : SignatureTable) : List Signature :=
  (t.entries.map (·.2)).mergeSort fun a b => a.name ≤ b.name

end SignatureTable

/-- Intrinsic identifiers and the host functions bound to them, the latest first. -/
structure HostBindings where
  entries : List (String × String) := []
  deriving Inhabited

namespace HostBindings

def empty : HostBindings := {}

def size (b : HostBindings) : Nat :=
  b.entries.length

def get? (b : HostBindings) (ident : String) : Option String :=
  b.entries.lookup ident

def register (b : HostBindings) (ident host : String) : Except RegistrationError HostBindings :=
  match b.get? ident with
  | some _ => .error (.duplicateBinding ident)
  | none => .ok ⟨(ident, host) :: b.entries⟩

end HostBindings

/-- All that calls are resolved against. -/
structure Environment where
  functions : SignatureTable := {}
  bindings : HostBindings := {}
  deriving Inhabited

end StackCompiler
