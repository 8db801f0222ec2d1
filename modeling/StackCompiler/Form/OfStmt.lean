import StackCompiler.Form.OfExpr
import StackCompiler.Source.Stmt

/-!
Forms of source statements. One statement may become several forms, since every name of a
declaration or an assignment is bound or stored by itself.
-/

namespace StackCompiler

open Source

/-- Where an assignment stores a value: nowhere, in a new variable, in a known one, or in an element
of an array. -/
inductive Target where
  | blank
  | define (name : String)
  | assign (name : String)
  | element (base at' : Expr)

namespace Target

def ofName (name : String) : Target :=
  if name = Source.blank then .blank else .define name

def ofExpr : Expr → Lower Target
  | .ident name defines _ _ _ =>
    .ok (if name = Source.blank then .blank else if defines then .define name else .assign name)
  | .index base at' _ _ => .ok (.element base at')
  | .paren inner _ => ofExpr inner
  | e => refuse .assignmentTarget e.span

def isBlank : Target → Bool
  | blank => true
  | _ => false

def isDefine : Target → Bool
  | define _ => true
  | _ => false

/-- The place of the index of an element whose selection calls something. -/
def callSpan? : Target → Option Span
  | element base at' => if base.containsCall || at'.containsCall then some at'.span else none
  | _ => none

/-- Stores a value. Where nothing is stored, the value is kept only for its effect. -/
def store (env : Environment) (t : Target) (value : Form) : Lower (List Form) :=
  match t with
  | blank => .ok (if value.isPure then [] else [value])
  | define name => .ok [.bind name value]
  | assign name => .ok [.rebind name value]
  | element base at' => do
    let b ← Form.ofExpr env base
    let i ← Form.ofExpr env at'
    return [.set b i value]

end Target

def storeEach (env : Environment) : List (Target × Form) → Lower (List Form)
  | [] => .ok []
  | (t, value) :: rest => do
    let first ← t.store env value
    let others ← storeEach env rest
    return first ++ others

/-- The variable that holds the value at a position while others are still evaluated. No source
name starts like it. -/
def temporary (position : Nat) : String :=
  s!"#tmp{position}"

/-- A value bound to its temporary and the store from there to its target; none if the value has no
effect and is not stored. -/
def storeThroughTemporary (env : Environment) (position : Nat) (t : Target) (value : Form) :
    Lower (List Form × List Form) :=
  if t.isBlank && value.isPure then .ok ([], [])
  else do
    let stores ← t.store env (.var (temporary position))
    return ([.bind (temporary position) value], stores)

def storeThroughTemporaries (env : Environment) (position : Nat) :
    List (Target × Form) → Lower (List Form × List Form)
  | [] => .ok ([], [])
  | (t, value) :: rest => do
    let (binds, stores) ← storeThroughTemporary env position t value
    let (moreBinds, moreStores) ← storeThroughTemporaries env (position + 1) rest
    return (binds ++ moreBinds, stores ++ moreStores)

/-- Whether values must all be evaluated before the first is stored. -/
def needsTemporaries (targets : List Target) (values : List Form) : Bool :=
  1 < targets.length && targets.any (!·.isBlank) && !values.all Form.isAtom

/-- Stores values into as many targets. New variables stay bound after the statement; otherwise the
temporaries end with it. -/
def assignPairwise (env : Environment) (targets : List Target) (values : List Expr) :
    Lower (List Form) := do
  let forms ← Form.ofStoredList env values
  if needsTemporaries targets forms then do
    let (binds, stores) ← storeThroughTemporaries env 0 (targets.zip forms)
    return if targets.any Target.isDefine then binds ++ stores else [.block (binds ++ stores)]
  else storeEach env (targets.zip forms)

/-- The results of a call after the first, from a result number on. -/
def resultRefs (index : Nat) : List Target → List (Target × Form)
  | [] => []
  | t :: ts => (t, .resultRef index) :: resultRefs (index + 1) ts

/-- Stores the results of a call: the first is its value, the others are read from where the call
left them. Nothing may be called before they are read. -/
def destructure (env : Environment) (targets : List Target) (call : Expr) : Lower (List Form) :=
  match targets with
  | [] => .ok []
  | first :: rest =>
    match rest.findSome? Target.callSpan? with
    | some span => refuse .callInIndexTarget span
    | none => do
      let value ← Form.ofExpr env call
      storeEach env ((first, value) :: resultRefs 1 rest)

/-- Stores values into targets, one for one or from a single call. -/
def assignValues (env : Environment) (targets : List Target) (values : List Expr) (span : Span) :
    Lower (List Form) :=
  if targets.length = values.length then assignPairwise env targets values
  else
    match values with
    | [call] =>
      if call.isCall then
        if call.kind = .tuple targets.length then destructure env targets call
        else refuse (.fromSingleValue targets.length) span
      else refuse (.countMismatch 1 targets.length) span
    | values => refuse (.countMismatch values.length targets.length) span

def zeroValue (kind : Kind) (span : Span) : Lower Form :=
  match kind with
  | .scalar s => .ok s.zero
  | .slice _ => .ok (.bool false)
  | .array elem length => .ok (Form.zeroArray elem length)
  | .void | .tuple _ => refuse .noValueKind span

def bindZeros (kind : Kind) (span : Span) : List String → Lower (List Form)
  | [] => .ok []
  | name :: rest =>
    if name = Source.blank then bindZeros kind span rest
    else do
      let zero ← zeroValue kind span
      let others ← bindZeros kind span rest
      return .bind name zero :: others

def specForms (env : Environment) (spec : ValueSpec) : Lower (List Form) :=
  if spec.values.isEmpty then bindZeros spec.kind spec.span spec.names
  else assignValues env (spec.names.map Target.ofName) spec.values spec.span

def specsForms (env : Environment) : List ValueSpec → Lower (List Form)
  | [] => .ok []
  | spec :: rest => do
    let first ← specForms env spec
    let others ← specsForms env rest
    return first ++ others

/-- Constants need no form, since their uses carry the value. -/
def declForms (env : Environment) (keyword : DeclKind) (specs : List ValueSpec) (span : Span) :
    Lower (List Form) :=
  match keyword with
  | .const => .ok []
  | .type => refuse .localType span
  | .var => specsForms env specs

def targetsOf : List Expr → Lower (List Target)
  | [] => .ok []
  | e :: es => do
    let t ← Target.ofExpr e
    let ts ← targetsOf es
    return t :: ts

/-- The forms of an assignment; with an operator, the target is read, changed and stored. -/
def assignForms (env : Environment) (lhs : List Expr) (op : AssignOp) (rhs : List Expr)
    (span : Span) : Lower (List Form) := do
  let targets ← targetsOf lhs
  match op.binary? with
  | none => assignValues env targets rhs span
  | some binary =>
    match targets, lhs, rhs with
    | [target], [left], [right] => do
      let current ← Form.ofExpr env left
      let operand ← Form.ofExpr env right
      let value ← Form.ofBinary binary left.kind.family? current operand span
      target.store env value
    | _, _, _ => refuse (.multiValueOp op) span

def unit? (kind : Kind) : Option (Family × Form) :=
  match kind.family? with
  | some .int => some (.int, .int 1)
  | some .float => some (.float, .float .one)
  | _ => none

def Source.Step.opKind : Step → OpKind
  | .up => .add
  | .down => .sub

def stepForms (env : Environment) (direction : Step) (target : Expr) (span : Span) :
    Lower (List Form) :=
  match unit? target.kind with
  | none => refuse (.nonNumericStep direction) span
  | some (family, one) => do
    let t ← Target.ofExpr target
    let current ← Form.ofExpr env target
    t.store env (.op direction.opKind family [current, one])

/-- Whether a single result stands for several. -/
def returnsTuple : List Expr → Bool
  | [result] => result.kind.isTuple
  | _ => false

def returnForms (env : Environment) (results : List Expr) (span : Span) : Lower (List Form) :=
  if returnsTuple results then refuse .returnOfTuple span
  else do
    let fs ← Form.ofStoredList env results
    return [.ret fs]

def asOne : List Form → Form
  | [f] => f
  | fs => .block fs

/-- A loop after the forms that prepare it, whose variables end with the loop. -/
def withInit : Option (List Form) → Form → Form
  | none, loop => loop
  | some forms, loop => .block (forms ++ [loop])

mutual
/-- The forms of a statement, inside or outside of a loop. -/
def Block.ofStmt (env : Environment) (inLoop : Bool) : Stmt → Lower (List Form)
  | .expr e _ => do
    let f ← Form.ofExpr env e
    return [f]
  | .decl keyword specs span => declForms env keyword specs span
  | .assign targets op values span => assignForms env targets op values span
  | .step direction target span => stepForms env direction target span
  | .ret results span => returnForms env results span
  | .block body _ => do
    let fs ← Block.ofStmts env inLoop body
    return [.block fs]
  | .branch init cond body els span =>
    match init with
    | some _ => refuse .branchInit span
    | none => do
      let c ← Form.ofExpr env cond
      let fs ← Block.ofStmts env inLoop body
      match els with
      | none => return [.branch c fs none]
      | some other => do
        let gs ← Block.ofStmt env inLoop other
        return [.branch c fs (some (asOne gs))]
  | .loop init cond post body _ => do
    let prepared ← match init with
      | none => .ok none
      | some s => do
        let fs ← Block.ofStmt env inLoop s
        .ok (some fs)
    let c ← match cond with
      | none => .ok (.bool true)
      | some e => Form.ofExpr env e
    let fs ← Block.ofStmts env true body
    match post with
    | none => return [withInit prepared (.loop c fs none)]
    | some s => do
      let gs ← Block.ofStmt env inLoop s
      return [withInit prepared (.loop c fs (some (asOne gs)))]
  | .breakLoop span =>
    if inLoop then .ok [.breakLoop] else refuse (.outsideLoop .breakLoop) span
  | .continueLoop span =>
    if inLoop then .ok [.continueLoop] else refuse (.outsideLoop .continueLoop) span

def Block.ofStmts (env : Environment) (inLoop : Bool) : List Stmt → Lower Block
  | [] => .ok []
  | s :: rest => do
    let first ← Block.ofStmt env inLoop s
    let others ← Block.ofStmts env inLoop rest
    return first ++ others
end

def Block.ofFunction (env : Environment) (f : Function) : Lower Block :=
  Block.ofStmts env false f.body

end StackCompiler
