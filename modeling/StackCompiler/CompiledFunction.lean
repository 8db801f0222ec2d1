import StackCompiler.Assembly.Statement
import StackCompiler.Form.OfStmt

/-!
Functions from source to finished code.
-/

namespace StackCompiler

open Source

/-- A function ready to run: its code and the constants that the code refers to. -/
structure CompiledFunction where
  name : String
  params : List String
  chunk : Chunk
  constants : Array Constant
  deriving DecidableEq, Inhabited

namespace CompiledFunction

def ofAssembly (name : String) (params : List String) (s : Assembly) :
    Except CompileError CompiledFunction :=
  match s.finish with
  | .ok chunk => .ok ⟨name, params, chunk, s.pool.entries⟩
  | .error e => .error e

def ofBlock (functions : SignatureTable) (name : String) (params : List String) (body : Block) :
    Except CompileError CompiledFunction :=
  match emitBody functions body (Assembly.ofParams params) with
  | .ok _ s => ofAssembly name params s
  | .error e _ => .error e

/-- Compiles a source function. Too many results are refused before the body is looked at. -/
def ofSource (env : Environment) (f : Function) : Except CompileError CompiledFunction :=
  if f.results.length ≤ Host.maxResults then
    match Block.ofFunction env f with
    | .ok body => ofBlock env.functions f.name (f.params.map (·.name)) body
    | .error e => .error e
  else .error (.capacity .returnValues f.results.length)

end CompiledFunction

end StackCompiler
