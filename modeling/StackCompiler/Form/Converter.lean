import StackCompiler.Form.OfStmt

/-!
Items of source lowered one after the other. A converter counts the bodies of loops that are open
around the statement it is at, so that `break` and `continue` can be refused outside of them. It
goes on with the next item when one is refused.
-/

namespace StackCompiler

open Source

/-- What one item is lowered against. -/
structure Converter where
  env : Environment
  /-- How many bodies of loops are open. -/
  loopDepth : Nat := 0

/-- A conversion that may refuse. The converter is left in some state either way. -/
abbrev Convert := EStateM CompileError Converter

namespace Converter

def fresh (env : Environment) : Converter := { env }

/-- Lowers what no loop matters for. -/
def lower {α : Type} (x : Environment → Lower α) : Convert α := fun c =>
  match x c.env with
  | .ok a => .ok a c
  | .error e => .error e c

def enterLoop (c : Converter) : Converter :=
  { c with loopDepth := c.loopDepth + 1 }

def leaveLoop (c : Converter) : Converter :=
  { c with loopDepth := c.loopDepth - 1 }

/-- Converts the body of a loop. The loop is left even if the conversion refuses. -/
def withinLoop {α : Type} (x : Convert α) : Convert α := fun c =>
  match x c.enterLoop with
  | .ok a c => .ok a c.leaveLoop
  | .error e c => .error e c.leaveLoop

/-- Refuses a statement that is only for the bodies of loops. -/
def loopControl (jump : LoopJump) (span : Span) : Convert Unit := do
  if (← get).loopDepth = 0 then throw (.unsupported (.outsideLoop jump) span)

def expr (e : Expr) : Convert Form :=
  lower fun env => Form.ofExpr env e

def value (e : Expr) : Convert Form :=
  lower fun env => Form.ofStored env e

/-- Converts a condition; one that is absent always holds. -/
def condition : Option Expr → Convert Form
  | none => pure (.bool true)
  | some e => expr e

mutual
/-- Converts a statement. Of a loop, only the body is inside of it. -/
def stmt : Stmt → Convert (List Form)
  | .expr e _ => do
    let f ← expr e
    return [f]
  | .decl keyword specs span => lower fun env => declForms env keyword specs span
  | .assign targets op values span => lower fun env => assignForms env targets op values span
  | .step direction target span => lower fun env => stepForms env direction target span
  | .ret results span => lower fun env => returnForms env results span
  | .block body _ => do
    let fs ← block body
    return [.block fs]
  | .branch (some _) _ _ _ span => throw (.unsupported .branchInit span)
  | .branch none cond body els _ => do
    let c ← expr cond
    let fs ← block body
    let other ← optional els
    return [.branch c fs (other.map asOne)]
  | .loop init cond post body _ => do
    let prepared ← optional init
    let c ← condition cond
    let fs ← withinLoop (block body)
    let after ← optional post
    return [withInit prepared (.loop c fs (after.map asOne))]
  | .breakLoop span => do
    loopControl .breakLoop span
    return [.breakLoop]
  | .continueLoop span => do
    loopControl .continueLoop span
    return [.continueLoop]

def block : List Stmt → Convert Block
  | [] => pure []
  | s :: rest => do
    let first ← stmt s
    let others ← block rest
    return first ++ others

def optional : Option Stmt → Convert (Option (List Form))
  | none => pure none
  | some s => do
    let fs ← stmt s
    return some fs
end

/-- Converts the body of a function, which starts outside of all loops. -/
def function (f : Function) : Convert Block := do
  modify fun c => { c with loopDepth := 0 }
  block f.body

inductive Item where
  | expr (e : Expr)
  | value (e : Expr)
  | stmt (s : Stmt)
  | block (body : List Stmt)
  | function (f : Function)

inductive Converted where
  | form (f : Form)
  | forms (fs : List Form)
  | block (b : Block)

def Item.convert : Item → Convert Converted
  | .expr e => Converted.form <$> Converter.expr e
  | .value e => Converted.form <$> Converter.value e
  | .stmt s => Converted.forms <$> Converter.stmt s
  | .block body => Converted.block <$> Converter.block body
  | .function f => Converted.block <$> Converter.function f

def answer (c : Converter) (item : Item) : Lower Converted :=
  match item.convert c with
  | .ok a _ => .ok a
  | .error e _ => .error e

def after (c : Converter) (item : Item) : Converter :=
  match item.convert c with
  | .ok _ c => c
  | .error _ c => c

/-- The answers to items, each converted in the state that those before it left. -/
def answers (c : Converter) : List Item → List (Lower Converted)
  | [] => []
  | item :: rest => c.answer item :: (c.after item).answers rest

end Converter

end StackCompiler
