import StackCompiler.Assembly.Value
import StackCompiler.Proofs.Runtime

/-!
What forms mean, said without code. Operands are evaluated from left to right, and a chain of one
operator combines its operands two at a time. Variables live in an environment that a block leaves
as long as it found it; a name that is not in the environment is a dynamic variable of the host.
Operators and array forms for which the machine has no instruction call a function of the host.

A form that is run for its effect tells how control goes on, and `fuel` bounds the rounds of each of
its loops: a body has a finite evaluation if some bound is large enough.
-/

namespace StackCompiler

namespace OpKind

def onNumbers? : OpKind → Option OpPlan
  | add => some (.fold .plus)
  | sub => some (.fold .diff)
  | mul => some (.fold .mult)
  | div => some (.fold .quo)
  | eq => some (.fold .numEq)
  | notEq => some (.foldNot .numEq)
  | less => some (.fold .lss)
  | lessEq => some (.fold .leq)
  | greater => some (.fold .gtr)
  | greaterEq => some (.fold .geq)
  | _ => none

def onStrings? : OpKind → Option OpPlan
  | add => some .concat
  | eq => some (.fold .stringEq)
  | notEq => some (.foldNot .stringEq)
  | less => some (.fold .stringLess)
  | lessEq => some (.host Host.stringLessEq)
  | greater => some (.host Host.stringGreater)
  | greaterEq => some (.host Host.stringGreaterEq)
  | _ => none

/-- What an operator does to operands of a family, if anything. -/
def operation? (kind : OpKind) : Family → Option OpPlan
  | .string => kind.onStrings?
  | .float => kind.onNumbers?
  | .int =>
    match kind with
    | rem => some (.fold .rem)
    | bitOr => some (.host Host.bitOr)
    | bitAnd => some (.host Host.bitAnd)
    | bitXor => some (.host Host.bitXor)
    | kind => kind.onNumbers?

/-- Operators are carried out as they are meant. -/
theorem plan?_eq_operation? (kind : OpKind) (family : Family) :
    kind.plan? family = kind.operation? family := by
  cases kind <;> cases family <;> rfl

end OpKind

/-- Variables and their values, the latest first. -/
abbrev Env (R : Runtime) := List (String × R.Value)

/-- The environment of a call: the last parameter is the latest variable. -/
def Env.ofArgs {R : Runtime} (params : List String) (args : List R.Value) : Env R :=
  (params.zip args).reverse

/-- Gives the latest variable of a name another value, if there is one. -/
def Env.update? {R : Runtime} (name : String) (v : R.Value) : Env R → Option (Env R)
  | [] => none
  | (x, old) :: rest =>
    if x = name then some ((x, v) :: rest) else (update? name v rest).map ((x, old) :: ·)

/-- The last `n` elements, which are the lowest ones of a stack. -/
def lowest {α : Type} (n : Nat) (l : List α) : List α :=
  l.drop (l.length - n)

inductive Flow (Value : Type) where
  | next
  | breakLoop
  | continueLoop
  | ret (v : Value)

mutual
def evalValue (R : Runtime) (env : Env R) : Form → Run R R.Value
  | .bool b => return R.constant (.symbol (if b then Host.truth else Host.nil))
  | .char c => return R.constant (.int (.ofNat c.toNat))
  | .int v => return R.constant (.int v)
  | .float x => return R.constant (.float x)
  | .str s => return R.constant (.str s)
  | .symbol name => return R.constant (.symbol name)
  | .var name =>
    match env.lookup name with
    | some v => return v
    | none => Run.readVar name
  | .array elems => do
    let vs ← evalValues R env elems
    Run.callNamed Host.vector vs
  | .sparseArray ctor stores => do
    let a ← evalValue R env ctor
    evalStores R env a stores
    return a
  | .copy source => do
    let a ← evalValue R env source
    Run.callNamed Host.copySequence [a]
  | .get source index => do
    let a ← evalValue R env source
    let i ← evalValue R env index
    Run.primitive (R.arrayRef a i)
  | .op kind family args =>
    match kind.operation? family with
    | none => throw .stuck
    | some .concat => do
      let vs ← evalValues R env args
      Run.primitive (R.concat vs)
    | some (.host name) => do
      let vs ← evalValues R env args
      Run.callNamed name vs
    | some (.fold i) => evalChain R env i args
    | some (.foldNot i) => do
      let v ← evalChain R env i args
      Run.primitive (R.unary .not v)
  | .unary kind family arg =>
    match kind, family with
    | .neg, .int | .neg, .float => do
      let v ← evalValue R env arg
      Run.primitive (R.unary .negate v)
    | .bitNot, .int => do
      let v ← evalValue R env arg
      Run.callNamed Host.bitNot [v]
    | _, _ => throw .stuck
  | .not arg => do
    let v ← evalValue R env arg
    Run.primitive (R.unary .not v)
  | .and left right => do
    let v ← evalValue R env left
    if R.isNil v then return v else evalValue R env right
  | .or left right => do
    let v ← evalValue R env left
    if R.isNil v then evalValue R env right else return v
  | .call name args => do
    let vs ← evalValues R env args
    Run.callNamed name vs
  | .dynCall callee args => do
    let f ← evalValue R env callee
    let vs ← evalValues R env args
    Run.callNamed Host.funcall (f :: vs)
  | .resultRef index =>
    match Host.resultVar? index with
    | some var => Run.readVar var
    | none => throw .stuck
  | .block _ | .branch _ _ _ | .loop _ _ _ | .ret _ | .breakLoop | .continueLoop | .bind _ _
  | .rebind _ _ | .set _ _ _ => throw .stuck

def evalValues (R : Runtime) (env : Env R) : List Form → Run R (List R.Value)
  | [] => return []
  | f :: fs => do
    let v ← evalValue R env f
    let vs ← evalValues R env fs
    return v :: vs

def evalChain (R : Runtime) (env : Env R) (i : BinaryInstr) : List Form → Run R R.Value
  | [] => throw .stuck
  | f :: fs => do
    let v ← evalValue R env f
    evalChainRest R env i v fs

def evalChainRest (R : Runtime) (env : Env R) (i : BinaryInstr) (left : R.Value) :
    List Form → Run R R.Value
  | [] => return left
  | f :: fs => do
    let right ← evalValue R env f
    let v ← Run.primitive (R.binary i left right)
    evalChainRest R env i v fs

def evalStores (R : Runtime) (env : Env R) (a : R.Value) : List (Int64 × Form) → Run R Unit
  | [] => return ()
  | (index, f) :: rest => do
    let v ← evalValue R env f
    Run.primitive (R.arraySet a (R.constant (.int index)) v)
    evalStores R env a rest
end

/-- Evaluates further results and stores each in its variable. -/
def evalResults (R : Runtime) (env : Env R) : List String → List Form → Run R Unit
  | _, [] => return ()
  | [], _ :: _ => throw .stuck
  | var :: vars, f :: fs => do
    let v ← evalValue R env f
    Run.writeVar var v
    evalResults R env vars fs

/-- Leaves a block: the variables that were bound in it end. -/
def endBlock {R : Runtime} (outer : Env R) (x : Run R (Flow R.Value × Env R)) :
    Run R (Flow R.Value × Env R) := do
  let (flow, inner) ← x
  return (flow, lowest outer.length inner)

/-- Rounds of a loop: the test, then the body and what stands after it. -/
def execRounds {R : Runtime} (test : Env R → Run R R.Value)
    (body post : Env R → Run R (Flow R.Value × Env R)) : Nat → Env R → Run R (Flow R.Value × Env R)
  | 0, _ => throw .timeout
  | rounds + 1, env => do
    let c ← test env
    if R.isNil c then return (.next, env)
    else
      match ← body env with
      | (.ret v, env) => return (.ret v, env)
      | (.breakLoop, env) => return (.next, env)
      | (_, env) =>
        match ← post env with
        | (.next, env) => execRounds test body post rounds env
        | (.ret v, env) => return (.ret v, env)
        | _ => throw .stuck

mutual
def execForm (R : Runtime) (fuel : Nat) : Form → Env R → Run R (Flow R.Value × Env R)
  | .block body, env => endBlock env (execForms R fuel body env)
  | .branch cond body els, env => do
    let c ← evalValue R env cond
    if R.isNil c then
      match els with
      | none => return (.next, env)
      | some other => execForm R fuel other env
    else endBlock env (execForms R fuel body env)
  | .loop cond body post, env =>
    execRounds (fun env => evalValue R env cond)
      (fun env => endBlock env (execForms R fuel body env))
      (fun env =>
        match post with
        | none => return (.next, env)
        | some after => execForm R fuel after env)
      fuel env
  | .ret results, env =>
    match results with
    | [] => return (.ret (R.constant (.symbol Host.nil)), env)
    | first :: rest => do
      let v ← evalValue R env first
      evalResults R env Host.resultVars rest
      return (.ret v, env)
  | .breakLoop, env => return (.breakLoop, env)
  | .continueLoop, env => return (.continueLoop, env)
  | .bind name init, env => do
    let v ← evalValue R env init
    return (.next, (name, v) :: env)
  | .rebind name value, env => do
    let v ← evalValue R env value
    match Env.update? name v env with
    | some env => return (.next, env)
    | none => do
      Run.writeVar name v
      return (.next, env)
  | .set target index value, env => do
    let a ← evalValue R env target
    let i ← evalValue R env index
    let v ← evalValue R env value
    Run.primitive (R.arraySet a i v)
    return (.next, env)
  | f, env => do
    let _ ← evalValue R env f
    return (.next, env)

/-- Runs forms in order, as long as control goes on from one to the next. -/
def execForms (R : Runtime) (fuel : Nat) : List Form → Env R → Run R (Flow R.Value × Env R)
  | [], env => return (.next, env)
  | f :: fs, env => do
    match ← execForm R fuel f env with
    | (.next, env) => execForms R fuel fs env
    | (flow, env) => return (flow, env)
end

section

variable {R : Runtime} {fuel : Nat}

/-- A form that has a value is run for it. -/
theorem execForm_of_isStatement {f : Form} (h : f.isStatement = false) (env : Env R) :
    execForm R fuel f env = (do let _ ← evalValue R env f; return (.next, env)) := by
  cases f with
  | block _ | branch _ _ _ | loop _ _ _ | ret _ | breakLoop | continueLoop | bind _ _
  | rebind _ _ | set _ _ _ => cases h
  | _ => rfl

theorem execForms_append (fs gs : List Form) (env : Env R) :
    execForms R fuel (fs ++ gs) env = (do
      match ← execForms R fuel fs env with
      | (.next, env) => execForms R fuel gs env
      | (flow, env) => return (flow, env)) := by
  induction fs generalizing env with
  | nil => simp [execForms]
  | cons f fs ih =>
      simp only [List.cons_append, execForms, bind_assoc]
      congr
      funext r
      obtain ⟨flow, env'⟩ := r
      cases flow with
      | next => exact ih env'
      | _ => simp

end

def evalBody (R : Runtime) (fuel : Nat) (params : List String) (body : Block)
    (args : List R.Value) : Run R R.Value := do
  match ← execForms R fuel body (Env.ofArgs params args) with
  | (.next, _) => return R.constant (.symbol Host.nil)
  | (.ret v, _) => return v
  | _ => throw .stuck

end StackCompiler
