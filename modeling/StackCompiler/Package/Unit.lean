import StackCompiler.CompiledFunction
import StackCompiler.Package.Context

/-!
Packages compiled as a whole. The signatures of all functions are declared before the first body is
compiled, so that functions may call each other in any order.
-/

namespace StackCompiler

open Source

inductive BuildError where
  | alreadyBuilt
  | noFunctions
  | registration (cause : RegistrationError)
  | compilation (function : String) (cause : CompileError)

def BuildError.message : BuildError → String
  | alreadyBuilt => "Unit has already been built"
  | noFunctions => "No functions in package"
  | registration cause => cause.message
  | compilation function cause => s!"in function '{function}': " ++ cause.message

/-- The compiled functions of a package, in the order of their declaration. -/
structure Module where
  functions : List CompiledFunction
  deriving Inhabited

def Module.find? (m : Module) (name : String) : Option CompiledFunction :=
  m.functions.find? (·.name == name)

/-- The marks of a source function: it is void if it has no results. -/
def Source.Function.flags (f : Function) : Flags :=
  { void := f.results.isEmpty }

def declareFunctions (t : SignatureTable) :
    List Function → Except RegistrationError SignatureTable
  | [] => .ok t
  | f :: rest => do
    let t ← t.declare f.name f.flags
    declareFunctions t rest

/-- Compiles functions in order, up to the first that fails. -/
def compileFunctions (env : Environment) : List Function → Except BuildError (List CompiledFunction)
  | [] => .ok []
  | f :: rest =>
    match CompiledFunction.ofSource env f with
    | .error e => .error (.compilation f.name e)
    | .ok compiled => do
      let others ← compileFunctions env rest
      return compiled :: others

def Source.Package.compile (env : Environment) (p : Package) : Except BuildError Module :=
  if p.functions.isEmpty then .error .noFunctions
  else
    match declareFunctions env.functions p.functions with
    | .error e => .error (.registration e)
    | .ok functions => do
      let compiled ← compileFunctions { env with functions } p.functions
      return ⟨compiled⟩

/-- A place for one compiled package, with the context it was created from. -/
structure CompilationUnit where
  context : Context
  module? : Option Module := none
  deriving Inhabited

namespace CompilationUnit

def ofContext (c : Context) : Except ContextError CompilationUnit :=
  if c.isSealed then .ok { context := c } else .error .notSealed

def isBuilt (u : CompilationUnit) : Bool :=
  u.module?.isSome

def functionCount (u : CompilationUnit) : Nat :=
  match u.module? with
  | some m => m.functions.length
  | none => 0

/-- Builds a package, unless the unit already holds one. -/
def build (u : CompilationUnit) (p : Package) : Except BuildError CompilationUnit :=
  if u.isBuilt then .error .alreadyBuilt
  else
    match p.compile u.context.environment with
    | .ok m => .ok { u with module? := some m }
    | .error e => .error e

def clear (u : CompilationUnit) : CompilationUnit :=
  { u with module? := none }

end CompilationUnit

end StackCompiler
