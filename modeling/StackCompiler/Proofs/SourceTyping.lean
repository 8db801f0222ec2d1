import StackCompiler.Proofs.SourceMeaning

/-!
Source programs of the scalar language whose names are declared and whose kinds fit. What is known
of a name is its scalar kind. Checking a statement tells what is declared in the block after it.
-/

namespace StackCompiler.Source

def BinaryOp.isDefinedOn : BinaryOp → Scalar → Bool
  | .add, s => s = .int || s = .char || s = .float || s = .string
  | .sub, s | .mul, s | .div, s => s = .int || s = .char || s = .float
  | .rem, s | .bitAnd, s | .bitOr, s | .bitXor, s | .andNot, s | .shl, s | .shr, s =>
    s = .int || s = .char
  | .eq, s | .notEq, s => s = .bool || s = .int || s = .char || s = .float || s = .string
  | .less, s | .lessEq, s | .greater, s | .greaterEq, s =>
    s = .int || s = .char || s = .float || s = .string
  | .logicalAnd, s | .logicalOr, s => s = .bool

def UnaryOp.isDefinedOn : UnaryOp → Scalar → Bool
  | .plus, s | .neg, s => s = .int || s = .char || s = .float
  | .bitNot, s => s = .int || s = .char
  | .not, s => s = .bool

def Kind.scalar? : Kind → Option Scalar
  | .scalar s => some s
  | _ => none

def BinaryOp.isDefinedOnKind (op : BinaryOp) (kind : Kind) : Bool :=
  match kind with
  | .scalar s => op.isDefinedOn s
  | _ => false

def UnaryOp.isDefinedOnKind (op : UnaryOp) (kind : Kind) : Bool :=
  match kind with
  | .scalar s => op.isDefinedOn s
  | _ => false

/-- What the declarations of a program say: the kind of the results of each function that is called,
and the results of the function that is checked. -/
structure Declared where
  results : String → Kind
  returns : List Kind

mutual
/-- Whether an expression is one of the scalar language, with the kinds that it should have. -/
def Expr.isTyped (d : Declared) (known : Scopes Scalar) : Expr → Bool
  | .lit v kind _ => kind = v.kind
  | .ident name _ kind value _ =>
    value.isNone && kind.scalar?.isSome && known.get? name = kind.scalar?
  | .binary op left right kind _ =>
    left.isTyped d known && right.isTyped d known && left.kind = right.kind &&
      op.isDefinedOnKind left.kind && kind = if op.yieldsBool then .bool else left.kind
  | .unary op operand kind _ =>
    operand.isTyped d known && op.isDefinedOnKind operand.kind && kind = operand.kind
  | .call (.function name) args kind _ =>
    name ≠ "panic" && name ≠ "len" && Expr.areTyped d known args && kind = d.results name
  | .paren inner _ => inner.isTyped d known
  | _ => false

def Expr.areTyped (d : Declared) (known : Scopes Scalar) : List Expr → Bool
  | [] => true
  | e :: es => e.isTyped d known && e.kind.scalar?.isSome && Expr.areTyped d known es
end

def declare? (scope : List (String × Scalar)) (name : String) (kind : Kind) :
    Option (List (String × Scalar)) :=
  match kind with
  | .scalar s => if name = blank then some scope else some ((name, s) :: scope)
  | _ => none

def checkAssign (d : Declared) (outer : Scopes Scalar) (scope : List (String × Scalar))
    (target : Expr) (op : AssignOp) (value : Expr) : Option (List (String × Scalar)) :=
  match target with
  | .ident name defines kind _ _ =>
    if value.isTyped d (scope :: outer) then
      match op, op.binary? with
      | .define, _ => if defines && value.kind = kind then declare? scope name kind else none
      | _, none =>
        if !defines && value.kind.scalar?.isSome &&
          (name = blank || target.isTyped d (scope :: outer) && value.kind = kind) then some scope
        else none
      | _, some binary =>
        if !defines && target.isTyped d (scope :: outer) && value.kind = kind &&
          binary.isDefinedOnKind kind then some scope
        else none
    else none
  | _ => none

def checkStep (d : Declared) (outer : Scopes Scalar) (scope : List (String × Scalar))
    (target : Expr) : Option (List (String × Scalar)) :=
  match target with
  | .ident _ defines kind _ _ =>
    if !defines && target.isTyped d (scope :: outer) &&
      BinaryOp.sub.isDefinedOnKind kind then some scope
    else none
  | _ => none

def checkSpec (d : Declared) (outer : Scopes Scalar) (scope : List (String × Scalar))
    (spec : ValueSpec) : Option (List (String × Scalar)) :=
  match spec.names, spec.values with
  | [name], [] => declare? scope name spec.kind
  | [name], [value] =>
    if value.isTyped d (scope :: outer) && value.kind = spec.kind then declare? scope name spec.kind
    else none
  | _, _ => none

def checkSpecs (d : Declared) (outer : Scopes Scalar) :
    List ValueSpec → List (String × Scalar) → Option (List (String × Scalar))
  | [], scope => some scope
  | spec :: rest, scope =>
    match checkSpec d outer scope spec with
    | some scope => checkSpecs d outer rest scope
    | none => none

/-- Whether the statement may stand after the condition of a loop, where nothing is declared. -/
def Stmt.isPost : Stmt → Bool
  | .expr _ _ | .step _ _ _ => true
  | .assign _ op _ _ => op ≠ .define
  | _ => false

/-- Whether the statement may stand after `else`. -/
def Stmt.isElse : Stmt → Bool
  | .block _ _ | .branch _ _ _ _ _ => true
  | _ => false

mutual
/-- What is declared in a block after a statement, if the statement is one of the scalar language
with all kinds as they should be. -/
def Stmt.check (d : Declared) (outer : Scopes Scalar) :
    Stmt → List (String × Scalar) → Option (List (String × Scalar))
  | .expr e _, scope => if e.isTyped d (scope :: outer) then some scope else none
  | .decl .var specs _, scope => checkSpecs d outer specs scope
  | .assign [target] op [value] _, scope => checkAssign d outer scope target op value
  | .step _ target _, scope => checkStep d outer scope target
  | .ret [] _, scope => if d.returns = [] then some scope else none
  | .ret [result] _, scope =>
    if result.isTyped d (scope :: outer) && result.kind.scalar?.isSome &&
      d.returns = [result.kind] then some scope
    else none
  | .block body _, scope =>
    if (Stmt.checkAll d (scope :: outer) body []).isSome then some scope else none
  | .branch none cond body els _, scope =>
    if cond.isTyped d (scope :: outer) && cond.kind = .bool &&
      (Stmt.checkAll d (scope :: outer) body []).isSome &&
      els.all Stmt.isElse && (Stmt.checkOption d outer els scope).isSome then some scope
    else none
  | .loop init cond post body _, scope =>
    match Stmt.checkOption d (scope :: outer) init [] with
    | none => none
    | some own =>
      if cond.all (fun e => e.isTyped d (own :: scope :: outer) && e.kind = .bool) &&
        (Stmt.checkAll d (own :: scope :: outer) body []).isSome &&
        post.all Stmt.isPost && (Stmt.checkOption d (scope :: outer) post own).isSome
      then some scope
      else none
  | .breakLoop _, scope | .continueLoop _, scope => some scope
  | _, _ => none

def Stmt.checkOption (d : Declared) (outer : Scopes Scalar) :
    Option Stmt → List (String × Scalar) → Option (List (String × Scalar))
  | none, scope => some scope
  | some s, scope => s.check d outer scope

def Stmt.checkAll (d : Declared) (outer : Scopes Scalar) :
    List Stmt → List (String × Scalar) → Option (List (String × Scalar))
  | [], scope => some scope
  | s :: rest, scope =>
    match s.check d outer scope with
    | some scope => Stmt.checkAll d outer rest scope
    | none => none
end

def paramScope? : List Param → Option (List (String × Scalar))
  | [] => some []
  | p :: ps =>
    match p.kind, paramScope? ps with
    | .scalar s, some scope => some ((p.name, s) :: scope)
    | _, _ => none

/-- Whether a function is one of the scalar language, given the results of the functions that it
calls. -/
def Function.isTyped (results : String → Kind) (f : Function) : Bool :=
  match paramScope? f.params with
  | some scope => (Stmt.checkAll ⟨results, f.results⟩ [] f.body scope.reverse).isSome
  | none => false

end StackCompiler.Source
