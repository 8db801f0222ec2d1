import StackCompiler.Form.OfStmt
import StackCompiler.Proofs.Evaluation

/-!
What source programs mean, said without forms. The language is that of scalar values and of
statements with a single target. A name stands for its innermost declaration, a block ends with the
variables declared in it, and a loop owns the variable that it starts with. Everything else has no
meaning here.

Operators do to values of a family what they do in forms. Equality of truth values is the host's
equality of objects, and two values differ if they are not equal.
-/

namespace StackCompiler

def OpKind.apply (R : Runtime) (kind : OpKind) (family : Family) (x y : R.Value) :
    Run R R.Value :=
  match kind.operation? family with
  | none => throw .stuck
  | some .concat => Run.primitive (R.concat [x, y])
  | some (.host name) => Run.callNamed name [x, y]
  | some (.fold i) => Run.primitive (R.binary i x y)
  | some (.foldNot i) => do
    let v ← Run.primitive (R.binary i x y)
    Run.primitive (R.unary .not v)

namespace Source

/-- What is known of names in nested blocks, the innermost block first. -/
abbrev Scopes (α : Type) := List (List (String × α))

namespace Scopes

def get? {α : Type} (name : String) : Scopes α → Option α
  | [] => none
  | scope :: outer =>
    match scope.lookup name with
    | some a => some a
    | none => get? name outer

/-- Declares a name in the innermost block, unless it stands for no variable. -/
def declare {α : Type} (name : String) (a : α) : Scopes α → Scopes α
  | [] => []
  | scope :: outer => if name = blank then scope :: outer else ((name, a) :: scope) :: outer

def set? {R : Runtime} (name : String) (v : R.Value) : Scopes R.Value → Option (Scopes R.Value)
  | [] => none
  | scope :: outer =>
    match Env.update? name v scope with
    | some scope => some (scope :: outer)
    | none => (set? name v outer).map (scope :: ·)

end Scopes

/-- The value of a literal. A character is its number. -/
def Literal.value (R : Runtime) : Literal → R.Value
  | .bool b => R.constant (.symbol (if b then Host.truth else Host.nil))
  | .int v => R.constant (.int v)
  | .float x => R.constant (.float x)
  | .char c => R.constant (.int (.ofNat c.toNat))
  | .str s => R.constant (.str s)

def Scalar.initial (R : Runtime) : Scalar → R.Value
  | .int => R.constant (.int 0)
  | .float => R.constant (.float .zero)
  | .string => R.constant (.str "")
  | .char => R.constant (.int 0)
  | .bool | .symbol | .object => R.constant (.symbol Host.nil)

def Kind.equal (R : Runtime) (kind : Kind) (x y : R.Value) : Run R R.Value :=
  match kind.family? with
  | some family => OpKind.eq.apply R family x y
  | none => Run.callNamed Host.eq [x, y]

def BinaryOp.apply (R : Runtime) (op : BinaryOp) (kind : Kind) (x y : R.Value) : Run R R.Value :=
  match op with
  | .eq => kind.equal R x y
  | .notEq => do
    let v ← kind.equal R x y
    Run.primitive (R.unary .not v)
  | op =>
    match op.opKind?, kind.family? with
    | some opKind, some family => opKind.apply R family x y
    | _, _ => throw .stuck

def UnaryOp.apply (R : Runtime) (op : UnaryOp) (kind : Kind) (x : R.Value) : Run R R.Value :=
  match op, kind.family? with
  | .plus, _ => return x
  | .not, _ => Run.primitive (R.unary .not x)
  | .neg, some .int | .neg, some .float => Run.primitive (R.unary .negate x)
  | .bitNot, some .int => Run.callNamed Host.bitNot [x]
  | _, _ => throw .stuck

mutual
def Expr.eval (R : Runtime) (vars : Scopes R.Value) : Expr → Run R R.Value
  | .lit v _ _ => return v.value R
  | .ident name _ _ _ _ =>
    match vars.get? name with
    | some v => return v
    | none => throw .stuck
  | .binary .logicalAnd left right _ _ => do
    let x ← left.eval R vars
    if R.isNil x then return x else right.eval R vars
  | .binary .logicalOr left right _ _ => do
    let x ← left.eval R vars
    if R.isNil x then right.eval R vars else return x
  | .binary op left right _ _ => do
    let x ← left.eval R vars
    let y ← right.eval R vars
    op.apply R left.kind x y
  | .unary op operand _ _ => do
    let x ← operand.eval R vars
    op.apply R operand.kind x
  | .call (.function name) args _ _ => do
    let vs ← Expr.evalAll R vars args
    Run.callNamed name vs
  | .paren inner _ => inner.eval R vars
  | _ => throw .stuck

def Expr.evalAll (R : Runtime) (vars : Scopes R.Value) : List Expr → Run R (List R.Value)
  | [] => return []
  | e :: es => do
    let v ← e.eval R vars
    let vs ← Expr.evalAll R vars es
    return v :: vs
end

/-- Where control goes on after a statement, and the variables there. -/
abbrev Outcome (R : Runtime) := Flow R.Value × Scopes R.Value

def assignTo {R : Runtime} (name : String) (v : R.Value) (vars : Scopes R.Value) :
    Run R (Outcome R) :=
  if name = blank then return (.next, vars)
  else
    match vars.set? name v with
    | some vars => return (.next, vars)
    | none => throw .stuck

/-- An assignment to one name. With an operator, the variable is read, changed and stored. -/
def execAssign (R : Runtime) (vars : Scopes R.Value) (target : Expr) (op : AssignOp)
    (value : Expr) : Run R (Outcome R) :=
  match target with
  | .ident name _ kind _ _ =>
    match op, op.binary? with
    | .define, _ => do
      let v ← value.eval R vars
      return (.next, vars.declare name v)
    | _, none => do
      let v ← value.eval R vars
      assignTo name v vars
    | _, some binary => do
      let x ← target.eval R vars
      let y ← value.eval R vars
      let v ← binary.apply R kind x y
      assignTo name v vars
  | _ => throw .stuck

def execStep (R : Runtime) (vars : Scopes R.Value) (direction : Step) (target : Expr) :
    Run R (Outcome R) :=
  match target with
  | .ident name _ kind _ _ => do
    let x ← target.eval R vars
    let one := if kind.family? = some .float then R.constant (.float .one) else R.constant (.int 1)
    let op := match direction with | .up => BinaryOp.add | .down => BinaryOp.sub
    let v ← op.apply R kind x one
    assignTo name v vars
  | _ => throw .stuck

def execSpec (R : Runtime) (vars : Scopes R.Value) (spec : ValueSpec) : Run R (Scopes R.Value) :=
  match spec.names, spec.kind, spec.values with
  | [name], .scalar s, [] => return vars.declare name (s.initial R)
  | [name], _, [value] => do
    let v ← value.eval R vars
    return vars.declare name v
  | _, _, _ => throw .stuck

def execSpecs (R : Runtime) : List ValueSpec → Scopes R.Value → Run R (Scopes R.Value)
  | [], vars => return vars
  | spec :: rest, vars => do
    let vars ← execSpec R vars spec
    execSpecs R rest vars

def inBlock {R : Runtime} (x : Scopes R.Value → Run R (Outcome R)) (vars : Scopes R.Value) :
    Run R (Outcome R) := do
  let (flow, vars) ← x ([] :: vars)
  return (flow, vars.tail)

/-- Whether a loop goes on. Without a condition it does. -/
def holds {R : Runtime} (cond : Option Expr) (vars : Scopes R.Value) : Run R Bool :=
  match cond with
  | none => return true
  | some e => do
    let c ← e.eval R vars
    return !R.isNil c

/-- Rounds of a loop: the test, then the body and what stands after it, also after `continue`. -/
def rounds {R : Runtime} (test : Scopes R.Value → Run R Bool)
    (body post : Scopes R.Value → Run R (Outcome R)) : Nat → Scopes R.Value → Run R (Outcome R)
  | 0, _ => throw .timeout
  | n + 1, vars => do
    if ← test vars then
      match ← body vars with
      | (.ret v, vars) => return (.ret v, vars)
      | (.breakLoop, vars) => return (.next, vars)
      | (_, vars) => do
        let (_, vars) ← post vars
        rounds test body post n vars
    else return (.next, vars)

mutual
/-- Runs a statement. The rounds of each of its loops are bounded by `fuel`. -/
def Stmt.exec (R : Runtime) (fuel : Nat) : Stmt → Scopes R.Value → Run R (Outcome R)
  | .expr e _, vars => do
    let _ ← e.eval R vars
    return (.next, vars)
  | .decl .var specs _, vars => do
    let vars ← execSpecs R specs vars
    return (.next, vars)
  | .assign [target] op [value] _, vars => execAssign R vars target op value
  | .step direction target _, vars => execStep R vars direction target
  | .ret [] _, vars => return (.ret (R.constant (.symbol Host.nil)), vars)
  | .ret [result] _, vars => do
    let v ← result.eval R vars
    return (.ret v, vars)
  | .block body _, vars => inBlock (Stmt.execAll R fuel body) vars
  | .branch none cond body els _, vars => do
    let c ← cond.eval R vars
    if R.isNil c then Stmt.execOption R fuel els vars
    else inBlock (Stmt.execAll R fuel body) vars
  | .loop init cond post body _, vars =>
    inBlock (fun vars => do
      match ← Stmt.execOption R fuel init vars with
      | (.next, vars) =>
        rounds (holds cond) (inBlock (Stmt.execAll R fuel body)) (Stmt.execOption R fuel post) fuel
          vars
      | (flow, vars) => return (flow, vars)) vars
  | .breakLoop _, vars => return (.breakLoop, vars)
  | .continueLoop _, vars => return (.continueLoop, vars)
  | _, _ => throw .stuck

def Stmt.execOption (R : Runtime) (fuel : Nat) : Option Stmt → Scopes R.Value → Run R (Outcome R)
  | none, vars => return (.next, vars)
  | some s, vars => s.exec R fuel vars

def Stmt.execAll (R : Runtime) (fuel : Nat) : List Stmt → Scopes R.Value → Run R (Outcome R)
  | [], vars => return (.next, vars)
  | s :: rest, vars => do
    match ← s.exec R fuel vars with
    | (.next, vars) => Stmt.execAll R fuel rest vars
    | (flow, vars) => return (flow, vars)
end

def Function.eval (R : Runtime) (fuel : Nat) (f : Function) (args : List R.Value) :
    Run R R.Value := do
  match ← Stmt.execAll R fuel f.body [((f.params.map Param.name).zip args).reverse] with
  | (.next, _) => return R.constant (.symbol Host.nil)
  | (.ret v, _) => return v
  | _ => throw .stuck

end Source

end StackCompiler
