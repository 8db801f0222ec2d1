import StackCompiler.Assembly.Value

/-!
Code for forms that are run for their effect. It leaves the stack as it found it, except that a
binding adds the slot of its variable, which the block around it drops in the end.
-/

namespace StackCompiler

mutual
/-- Whether control never gets past the form, as far as its last part tells. -/
def Form.terminates (functions : SignatureTable) : Form → Bool
  | .ret _ | .breakLoop | .continueLoop => true
  | .block body => lastTerminates functions body
  | f => f.callConvention? functions == some .never

def lastTerminates (functions : SignatureTable) : List Form → Bool
  | [] => false
  | [f] => f.terminates functions
  | _ :: rest => lastTerminates functions rest
end

/-- Stores values into variables, as long as there are both. -/
def emitResults (functions : SignatureTable) : List String → List Form → Emit Unit
  | var :: vars, f :: fs => do
    emitValue functions f
    Emit.dynamicSet var
    emitResults functions vars fs
  | _, _ => pure ()

/-- Returns results: the first as the value of the call, the others through the variables reserved
for them. -/
def emitReturn (functions : SignatureTable) (results : List Form) : Emit Unit :=
  match results with
  | [] => do
    Emit.nil
    Emit.ret
  | first :: rest =>
    if results.length ≤ Host.maxResults then do
      emitValue functions first
      emitResults functions Host.resultVars rest
      Emit.ret
    else throw (.capacity .returnValues results.length)

mutual
/-- Emits a form for its effect. -/
def emitForm (functions : SignatureTable) : Form → Emit Unit
  | .block body => do
    emitForms functions body
    Emit.discard (Block.locals body)
  | .branch cond body els => do
    let elseLabel ← Emit.newLabel "else"
    emitValue functions cond
    Emit.jump .ifNil elseLabel
    emitForms functions body
    Emit.discard (Block.locals body)
    match els with
    | none => Emit.bindLabel elseLabel
    | some other =>
      if lastTerminates functions body then do
        Emit.bindLabel elseLabel
        emitForm functions other
      else do
        let done ← Emit.newLabel "endif"
        Emit.jump .always done
        Emit.bindLabel elseLabel
        emitForm functions other
        Emit.bindLabel done
  | .loop cond body post => do
    let condLabel ← Emit.newLabel "loop-cond"
    let bodyLabel ← Emit.newLabel "loop-body"
    Emit.jump .always condLabel
    Emit.bindLabel bodyLabel
    Emit.enterLoop (if post.isNone then some condLabel else none)
    emitForms functions body
    Emit.discard (Block.locals body)
    match post with
    | none => pure ()
    | some after => do
      match ← Emit.pendingContinue with
      | some l => Emit.bindLabel l
      | none => pure ()
      emitForm functions after
    Emit.bindLabel condLabel
    emitValue functions cond
    Emit.jump .ifNotNil bodyLabel
    Emit.exitLoop
  | .ret results => emitReturn functions results
  | .breakLoop => Emit.loopJump .breakLoop
  | .continueLoop => Emit.loopJump .continueLoop
  | .bind name init => do
    emitValue functions init
    Emit.bindLocal name
  | .rebind name value => do
    emitValue functions value
    Emit.varSet name
  | .set target index value => do
    emitValue functions target
    emitValue functions index
    emitValue functions value
    Emit.instr .arraySet
  | .call name args => do
    let convention ← emitCall functions name args
    if convention = .value then Emit.discard 1 else pure ()
  | f => do
    emitValue functions f
    Emit.discard 1

def emitForms (functions : SignatureTable) : List Form → Emit Unit
  | [] => pure ()
  | f :: fs => do
    emitForm functions f
    emitForms functions fs
end

/-- Emits a block and drops the variables it binds. -/
def emitBlock (functions : SignatureTable) (body : Block) : Emit Unit := do
  emitForms functions body
  Emit.discard body.locals

def endsInReturn (body : Block) : Bool :=
  match body.getLast? with
  | some f => f.isReturn
  | none => false

/-- Emits the body of a function, which returns in the end even if the last form does not. -/
def emitBody (functions : SignatureTable) (body : Block) : Emit Unit := do
  emitForms functions body
  if endsInReturn body then pure () else emitReturn functions []

end StackCompiler
